import ProjectOS.Foundation
import ProjectOS.Lib.Text

/-! The session cookie, as a request is authenticated by it and as logging out
reads it: two scanners of the same header. -/

namespace ProjectOS.Server
open Lib List

def sessionCookieName : List Char := "pos_session".toList

def cutPair (pair : List Char) : Option (List Char × List Char) :=
  (splitOnce '=' pair).map fun cut => (trim cut.1,trim cut.2)

def cookieValueIn (name : List Char) : List (List Char) → Option (List Char)
  | [] => none
  | pair :: pairs =>
    match cutPair pair with
    | none => none
    | some (key,value) => if key = name then some value else cookieValueIn name pairs

def cookieValue (header name : List Char) : Option (List Char) :=
  cookieValueIn name (header.splitOn ';')

def cookiePair (header : List Char) : Option (List Char) :=
  (header.splitOn ';').findSome? fun pair =>
    (cutPair pair).bind fun cut => if cut.1 = sessionCookieName then some cut.2 else none

def tokenBytes : List Char → Option Bytes
  | [] => some []
  | [_] => none
  | a :: b :: rest =>
    (fromStrRadix 16 u8Max [a,b]).bind fun byte =>
      (tokenBytes rest).map fun bytes => UInt8.ofNat byte :: bytes

def presentedTokenHash (blake3 : Bytes → Digest) (cookie_value : List Char) : Option Digest :=
  if byteLen cookie_value ≠ 64 then none else (tokenBytes cookie_value).map blake3

structure SessionRow where
  account : AccountId
  expires_ts_ms : Nat

structure SessionIdentity where
  account_id : AccountId
  email : String

structure SessionDb where
  sessions : Digest → Option SessionRow
  emails : AccountId → Option String

namespace SessionDb

def deleteSession (db : SessionDb) (token_hash : Digest) : SessionDb :=
  { db with sessions := fun t => if t = token_hash then none else db.sessions t }

def sessionIdentity (db : SessionDb) (token_hash : Digest) (now_ms : Nat) :
    Option SessionIdentity × SessionDb :=
  match db.sessions token_hash with
  | none => (none,db)
  | some row =>
    match db.emails row.account with
    | none => (none,db)
    | some email =>
      if row.expires_ts_ms ≤ now_ms then (none,db.deleteSession token_hash)
      else (some ⟨row.account,email⟩,db)

variable (blake3 : Bytes → Digest)

def identityFromCookieHeader (db : SessionDb) (cookie_header : Option (List Char)) (now_ms : Nat) :
    Option SessionIdentity × SessionDb :=
  match (cookie_header.bind fun header => cookieValue header sessionCookieName).bind
      (presentedTokenHash blake3) with
  | none => (none,db)
  | some token_hash => db.sessionIdentity token_hash now_ms

def logout (db : SessionDb) (cookie_header : Option (List Char)) : SessionDb :=
  match (cookie_header.bind cookiePair).bind (presentedTokenHash blake3) with
  | none => db
  | some token_hash => db.deleteSession token_hash

end SessionDb

def Named (pair : List Char) : Prop := ∃ value, cutPair pair = some (sessionCookieName,value)

/-- The value of the first pair of that name. -/
def FirstValue (pairs : List (List Char)) : Option (List Char) → Prop
  | none => ∀ pair ∈ pairs, ¬Named pair
  | some value => ∃ before pair after, pairs = before ++ pair :: after ∧
      (∀ p ∈ before, ¬Named p) ∧ cutPair pair = some (sessionCookieName,value)

def Paired (pairs : List (List Char)) : Prop :=
  ∀ before pair after, pairs = before ++ pair :: after → Named pair →
    (∀ p ∈ before, ¬Named p) → ∀ p ∈ before, '=' ∈ p

variable {pair : List Char} {pairs : List (List Char)} {value : List Char}

theorem cutPair_eq_none : cutPair pair = none ↔ '=' ∉ pair := by
  rw [cutPair,Option.map_eq_none_iff,splitOnce_eq_none]

def sessionValue (pair : List Char) : Option (List Char) :=
  (cutPair pair).bind fun cut => if cut.1 = sessionCookieName then some cut.2 else none

theorem sessionValue_eq_some :
    sessionValue pair = some value ↔ cutPair pair = some (sessionCookieName,value) := by
  cases hcut : cutPair pair with
  | none => simp [sessionValue,hcut]
  | some cut => simp [sessionValue,hcut,Prod.ext_iff]

theorem named_iff : Named pair ↔ ∃ value, sessionValue pair = some value := by
  simp [Named,sessionValue_eq_some]

theorem not_named : ¬Named pair ↔ sessionValue pair = none := by
  rw [named_iff,← Option.isSome_iff_exists,Option.not_isSome_iff_eq_none]

theorem findSome_firstValue (pairs : List (List Char)) :
    FirstValue pairs (pairs.findSome? sessionValue) := by
  cases hfind : pairs.findSome? sessionValue with
  | none => exact fun pair hpair => not_named.mpr (List.findSome?_eq_none_iff.mp hfind pair hpair)
  | some value =>
    obtain ⟨before,pair,after,hpairs,hvalue,hbefore⟩ := List.findSome?_eq_some_iff.mp hfind
    exact ⟨before,pair,after,hpairs,fun p hp => not_named.mpr (hbefore p hp),
      sessionValue_eq_some.mp hvalue⟩

theorem firstValue_unique {found found' : Option (List Char)} (h : FirstValue pairs found)
    (h' : found' = pairs.findSome? sessionValue) : found = found' := by
  subst h'
  cases found with
  | none => exact (List.findSome?_eq_none_iff.mpr fun p hp => not_named.mp (h p hp)).symm
  | some value =>
    obtain ⟨before,pair,after,hpairs,hbefore,hcut⟩ := h
    exact (List.findSome?_eq_some_iff.mpr ⟨before,pair,after,hpairs,
      sessionValue_eq_some.mpr hcut,fun p hp => not_named.mp (hbefore p hp)⟩).symm

theorem Paired.tail (h : Paired (pair :: pairs)) (hpair : ¬Named pair) : Paired pairs := by
  intro before named after hpairs hnamed hbefore p hp
  refine h (pair :: before) named after (by rw [hpairs,cons_append]) hnamed ?_ p
    (mem_cons_of_mem _ hp)
  exact fun q hq => (mem_cons.mp hq).elim (fun heq => heq ▸ hpair) (hbefore q)

theorem cookieValueIn_cons (hpair : '=' ∈ pair) :
    cookieValueIn sessionCookieName (pair :: pairs) =
      (sessionValue pair).or (cookieValueIn sessionCookieName pairs) := by
  rw [cookieValueIn]
  cases hcut : cutPair pair with
  | none => exact absurd hpair (cutPair_eq_none.mp hcut)
  | some cut =>
    simp only [sessionValue,hcut,Option.bind_some]
    split_ifs <;> rfl

theorem cookieValueIn_eq (h : Paired pairs) :
    cookieValueIn sessionCookieName pairs = pairs.findSome? sessionValue := by
  induction pairs with
  | nil => rfl
  | cons pair pairs ih =>
    by_cases hpair : '=' ∈ pair
    · rw [cookieValueIn_cons hpair,List.findSome?_cons]
      cases hvalue : sessionValue pair with
      | some value => rfl
      | none => exact ih (h.tail (not_named.mpr hvalue))
    · -- The scan ends here. Had a later pair the name, this one would have its `=`.
      rw [cookieValueIn,cutPair_eq_none.mpr hpair]
      have hfirst := findSome_firstValue (pair :: pairs)
      cases hfind : (pair :: pairs).findSome? sessionValue with
      | none => rfl
      | some value =>
        rw [hfind] at hfirst
        obtain ⟨before,named,after,hpairs,hbefore,hcut⟩ := hfirst
        cases before with
        | nil =>
          obtain ⟨rfl,-⟩ := List.cons.inj hpairs
          exact absurd (cutPair_eq_none.mpr hpair) (by rw [hcut]; simp)
        | cons p before =>
          obtain ⟨rfl,-⟩ := List.cons.inj hpairs
          exact absurd (h _ named after hpairs ⟨value,hcut⟩ hbefore pair mem_cons_self) hpair

theorem paired_of_eq (h : cookieValueIn sessionCookieName pairs = pairs.findSome? sessionValue) :
    Paired pairs := by
  rintro before named after rfl ⟨value,hcut⟩ hbefore
  have hvalue := sessionValue_eq_some.mpr hcut
  induction before with
  | nil => simp
  | cons pair before ih =>
    have hpair := not_named.mp (hbefore pair mem_cons_self)
    have hrest : ∀ p ∈ before, sessionValue p = none :=
      fun p hp => not_named.mp (hbefore p (mem_cons_of_mem _ hp))
    have hfind : (before ++ named :: after).findSome? sessionValue = some value := by
      rw [List.findSome?_append,List.findSome?_eq_none_iff.mpr hrest,List.findSome?_cons,hvalue]
      rfl
    rw [cons_append,List.findSome?_cons,hpair] at h
    simp only [hfind] at h
    have heq : '=' ∈ pair := by
      by_contra hno
      rw [cookieValueIn,cutPair_eq_none.mpr hno] at h
      cases h
    rw [cookieValueIn_cons heq,hpair,Option.none_or] at h
    refine forall_mem_cons.mpr ⟨heq,ih (by rw [h,hfind]) fun p hp => ?_⟩
    exact hbefore p (mem_cons_of_mem _ hp)

variable {identity : SessionIdentity} {db : SessionDb} {now_ms : Nat}

theorem SessionDb.sessionIdentity_some {token_hash : Digest}
    (h : (db.sessionIdentity token_hash now_ms).1 = some identity) :
    db.sessionIdentity token_hash now_ms = (some identity,db) := by
  unfold sessionIdentity at h ⊢
  cases hrow : db.sessions token_hash with
  | none => simp [hrow] at h
  | some row =>
    cases hemail : db.emails row.account with
    | none => simp [hrow,hemail] at h
    | some email =>
      simp only [hrow,hemail] at h ⊢
      split_ifs at h ⊢ with hover
      simpa using h

theorem logout_deletes {header : List Char}
    (h : cookieValue header sessionCookieName = cookiePair header) {blake3 : Bytes → Digest}
    (hidentity : (db.identityFromCookieHeader blake3 (some header) now_ms).1 = some identity) :
    ∃ token_hash, db.sessionIdentity token_hash now_ms = (some identity,db) ∧
      db.logout blake3 (some header) = db.deleteSession token_hash := by
  unfold SessionDb.identityFromCookieHeader at hidentity
  rw [Option.bind_some,h] at hidentity
  rw [SessionDb.logout,Option.bind_some]
  cases htoken : (cookiePair header).bind (presentedTokenHash blake3) with
  | none => simp [htoken] at hidentity
  | some token_hash =>
    rw [htoken] at hidentity
    exact ⟨token_hash,SessionDb.sessionIdentity_some hidentity,rfl⟩

/-- Both scanners find the first session cookie, and logging out deletes the session
that authenticates, where every pair in front of that cookie has its `=`. -/
theorem session_cookie_iff (header : List Char) :
    (FirstValue (header.splitOn ';') (cookieValue header sessionCookieName) ∧
      FirstValue (header.splitOn ';') (cookiePair header) ∧
      ∀ (blake3 : Bytes → Digest) (db : SessionDb) (now_ms : Nat) (identity : SessionIdentity),
        (db.identityFromCookieHeader blake3 (some header) now_ms).1 = some identity →
        ∃ token_hash, db.sessionIdentity token_hash now_ms = (some identity,db) ∧
          db.logout blake3 (some header) = db.deleteSession token_hash) ↔
      Paired (header.splitOn ';') := by
  constructor
  · rintro ⟨hvalue,-,-⟩
    exact paired_of_eq (firstValue_unique hvalue rfl)
  · intro hpaired
    have hvalue : cookieValue header sessionCookieName = cookiePair header :=
      cookieValueIn_eq hpaired
    refine ⟨?_,findSome_firstValue _,fun blake3 db now_ms identity => logout_deletes hvalue⟩
    rw [hvalue]
    exact findSome_firstValue _

def flaggedHeader : List Char := "theme; pos_session=a0".toList

/-- Behind a pair without `=`, the session cookie is not seen. -/
theorem flagged_header_unseen :
    ¬FirstValue (flaggedHeader.splitOn ';') (cookieValue flaggedHeader sessionCookieName) := by
  have hsplit : flaggedHeader.splitOn ';' = ["theme".toList," pos_session=a0".toList] := by
    decide +kernel
  have hnone : cookieValue flaggedHeader sessionCookieName = none := by
    rw [cookieValue,hsplit]
    rfl
  rw [hnone,hsplit]
  exact fun h => h _ (mem_cons_of_mem _ mem_cons_self) ⟨"a0".toList,by decide +kernel⟩

end ProjectOS.Server
