import ProjectOS.Gateway.CharTables

/-! The tokenizer of the local model: a text becomes words, and a word the pieces
of it that the vocabulary has, the longest first. -/

namespace ProjectOS.Gateway
open Lib

def wordpieceWordCharsMax : Nat := 100
def wordpieceVocabCountMax : Nat := 2^20

def continuationPrefix : List Char := "##".toList
def tokenUnknown : List Char := "[UNK]".toList
def tokenClassify : List Char := "[CLS]".toList
def tokenSeparate : List Char := "[SEP]".toList
def tokenPad : List Char := "[PAD]".toList

/-- Unicode's lower case of a character and its canonical decomposition. -/
structure UnicodeTables where
  toLowercase : Char → List Char
  nfd : Char → List Char

def asciiTables : UnicodeTables := ⟨fun c => [c.toLower],fun c => [c]⟩

def normalizeChar (t : UnicodeTables) (raw : Char) : List Char :=
  if raw = '\t' ∨ raw = '\n' ∨ raw = '\r' then [' ']
  else if isDroppedCategory raw then []
  else if isWhitespace raw then [' ']
  else
    (t.toLowercase raw).flatMap fun lowered =>
      (t.nfd lowered).filter fun decomposed => !isNonspacingMark decomposed

def normalize (t : UnicodeTables) (text : List Char) : List Char := text.flatMap (normalizeChar t)

def pushWord (words : List (List Char)) (current : List Char) : List (List Char) :=
  if current = [] then words else words ++ [current]

def splitStep (s : List (List Char) × List Char) (character : Char) : List (List Char) × List Char :=
  if character = ' ' then (pushWord s.1 s.2,[])
  else if isPunctuation character || isCjk character then (pushWord s.1 s.2 ++ [[character]],[])
  else (s.1,s.2 ++ [character])

def splitWords (text : List Char) : List (List Char) :=
  let s := text.foldl splitStep ([],[])
  pushWord s.1 s.2

def preTokenize (t : UnicodeTables) (text : List Char) : List (List Char) :=
  splitWords (normalize t text)

inductive VocabError where
  | missingSpecialToken (token : List Char)
  | tooManyEntries (count : Nat)
  | empty
  deriving DecidableEq

structure WordPiece where
  ids : List Char → Option Nat
  id_unknown : Nat
  id_classify : Nat
  id_separate : Nat
  id_pad : Nat

structure Encoding where
  input_ids : List Nat
  attention_mask : List Nat
  token_type_ids : List Nat
  truncated : Bool
  deriving DecidableEq

namespace WordPiece

def fromVocabText (text : List Char) : Except VocabError WordPiece :=
  let entries := (lines text).map (stripSuffix '\r')
  if wordpieceVocabCountMax < entries.length then
    .error (.tooManyEntries (wordpieceVocabCountMax+1))
  else if entries = [] then .error .empty
  else
    let ids := fun entry => entries.findIdx? (· = entry)
    let required (token : List Char) : Except VocabError Nat :=
      (ids token).elim (.error (.missingSpecialToken token)) .ok
    do
      let id_unknown ← required tokenUnknown
      let id_classify ← required tokenClassify
      let id_separate ← required tokenSeparate
      let id_pad ← required tokenPad
      return ⟨ids,id_unknown,id_classify,id_separate,id_pad⟩

def key (start : Nat) (piece : List Char) : List Char :=
  if start = 0 then piece else continuationPrefix ++ piece

variable (v : WordPiece) (chars : List Char)

def matched (start : Nat) : Nat → Option (Nat × Nat)
  | 0 => none
  | stop+1 =>
    if start < stop+1 then
      match v.ids (key start ((chars.take (stop+1)).drop start)) with
      | some id => some (id,stop+1)
      | none => matched start stop
    else none

/-- Piece after piece; a word that fails anywhere is unknown as a whole. As many
rounds as it has characters are enough. -/
def walk : Nat → Nat → List Nat → List Nat
  | 0, _, ids => ids
  | rounds+1, start, ids =>
    if start < chars.length then
      match v.matched chars start chars.length with
      | none => [v.id_unknown]
      | some (id,next) => walk rounds next (ids ++ [id])
    else ids

def subwordIds (word : List Char) : List Nat :=
  if word = [] then []
  else if wordpieceWordCharsMax < word.length then [v.id_unknown]
  else v.walk word word.length 0 []

def pushIds (content_max : Nat) : List Nat → List Nat → List Nat × Bool
  | input_ids, [] => (input_ids,false)
  | input_ids, id :: ids =>
    if content_max < input_ids.length then (input_ids,true)
    else pushIds content_max (input_ids ++ [id]) ids

def encodeWords (content_max : Nat) : List Nat → Bool → List (List Char) → List Nat × Bool
  | input_ids, truncated, [] => (input_ids,truncated)
  | input_ids, truncated, word :: words =>
    if content_max < input_ids.length then (input_ids,true)
    else
      let pushed := pushIds content_max input_ids (v.subwordIds word)
      encodeWords content_max pushed.1 (truncated || pushed.2) words

def encode (t : UnicodeTables) (text : List Char) (sequence_tokens_max : Nat) : Encoding :=
  let content_max := sequence_tokens_max-2
  let encoded := v.encodeWords content_max [v.id_classify] false (preTokenize t text)
  let input_ids := encoded.1 ++ [v.id_separate]
  { input_ids := input_ids
    attention_mask := List.replicate input_ids.length 1
    token_type_ids := List.replicate input_ids.length 0
    truncated := encoded.2 }

end WordPiece
end ProjectOS.Gateway
