import Mathlib.Data.BitVec

namespace ProjectOS

theorem forall_mem_of_all {α : Type} {P : α → Prop} [DecidablePred P] {l : List α}
    (h : l.all (fun x => decide (P x)) = true) : ∀ x ∈ l, P x :=
  fun x hx => of_decide_eq_true (List.all_eq_true.mp h x hx)

inductive IdKind where
  | project | run | job | cron | device | user | toolCall | checkpoint | validation
  | artifact | question | receipt | lease | workspace | account | evidence | source | chunk
  deriving DecidableEq

/-- A 16-byte id as a big-endian number: comparing numbers is comparing bytes. -/
structure Id (k : IdKind) where
  bits : BitVec 128
  deriving DecidableEq

abbrev ProjectId := Id .project
abbrev RunId := Id .run
abbrev JobId := Id .job
abbrev CronId := Id .cron
abbrev DeviceId := Id .device
abbrev UserId := Id .user
abbrev ToolCallId := Id .toolCall
abbrev CheckpointId := Id .checkpoint
abbrev ValidationId := Id .validation
abbrev ArtifactId := Id .artifact
abbrev QuestionId := Id .question
abbrev ReceiptId := Id .receipt
abbrev LeaseId := Id .lease
abbrev WorkspaceId := Id .workspace
abbrev AccountId := Id .account
abbrev EvidenceId := Id .evidence
abbrev SourceId := Id .source
abbrev ChunkId := Id .chunk

namespace Id
variable {k : IdKind}

def num (i : Id k) : Nat := i.bits.toNat

theorem num_injective : Function.Injective (num : Id k → Nat) := by
  rintro ⟨a⟩ ⟨b⟩ h
  exact congrArg Id.mk (BitVec.eq_of_toNat_eq h)

instance : LinearOrder (Id k) := LinearOrder.lift' num num_injective

end Id

abbrev Digest := BitVec 256

abbrev Bytes := List UInt8

def hexDigit (n : Nat) : Char :=
  if n < 10 then Char.ofNat (48+n) else Char.ofNat (87+n)

def hexText : Nat → Nat → List Char
  | 0, _ => []
  | w+1, n => hexText w (n/16) ++ [hexDigit (n%16)]

def Id.toHex {k : IdKind} (i : Id k) : String := String.ofList (hexText 32 i.num)

theorem hexText_length (w n : Nat) : (hexText w n).length = w := by
  induction w generalizing n with
  | zero => rfl
  | succ w ih => simp [hexText,ih]

theorem hexDigit_inj {a b : Nat} (ha : a < 16) (hb : b < 16) (h : hexDigit a = hexDigit b) :
    a = b := by
  have hall : ∀ a : Fin 16, ∀ b : Fin 16, hexDigit a = hexDigit b → a = b := by decide
  exact congrArg Fin.val (hall ⟨a,ha⟩ ⟨b,hb⟩ h)

theorem hexText_inj {w a b : Nat} (ha : a < 16^w) (hb : b < 16^w)
    (h : hexText w a = hexText w b) : a = b := by
  induction w generalizing a b with
  | zero =>
    simp only [Nat.pow_zero] at ha hb
    omega
  | succ w ih =>
    rw [hexText,hexText] at h
    obtain ⟨hhigh,hlow⟩ := List.append_inj' h rfl
    have hq : a/16 = b/16 := ih (by omega) (by omega) hhigh
    have hr : a%16 = b%16 :=
      hexDigit_inj (Nat.mod_lt _ (by decide)) (Nat.mod_lt _ (by decide)) (List.cons.inj hlow).1
    omega

theorem Id.toHex_length {k : IdKind} (i : Id k) : i.toHex.toList.length = 32 := by
  rw [Id.toHex,String.toList_ofList,hexText_length]

theorem Id.toHex_injective {k : IdKind} : Function.Injective (Id.toHex : Id k → String) := by
  intro a b h
  have hlist := congrArg String.toList h
  simp only [Id.toHex,String.toList_ofList] at hlist
  have hsize : (2 : Nat)^128 = 16^32 := by decide
  exact Id.num_injective (hexText_inj (hsize ▸ a.bits.isLt) (hsize ▸ b.bits.isLt) hlist)

def toDigit (radix : Nat) (c : Char) : Option Nat :=
  let value :=
    if 48 ≤ c.toNat ∧ c.toNat ≤ 57 then c.toNat-48
    else if 97 ≤ c.toNat ∧ c.toNat ≤ 122 then c.toNat-87
    else if 65 ≤ c.toNat ∧ c.toNat ≤ 90 then c.toNat-55
    else radix
  if value < radix then some value else none

def readDigits (radix max : Nat) : Nat → List Char → Option Nat
  | acc, [] => some acc
  | acc, c :: rest =>
    match toDigit radix c with
    | none => none
    | some d => if acc*radix+d ≤ max then readDigits radix max (acc*radix+d) rest else none

def fromStrRadix (radix max : Nat) : List Char → Option Nat
  | []
  | '+' :: [] => none
  | '+' :: rest => readDigits radix max 0 rest
  | text => readDigits radix max 0 text

def u8Max : Nat := 2^8-1
def u16Max : Nat := 2^16-1
def u32Max : Nat := 2^32-1
def u64Max : Nat := 2^64-1
def i64Max : Int := 2^63-1

def satAdd32 (a b : Nat) : Nat := min (a+b) u32Max

def satAdd64 (a b : Nat) : Nat := min (a+b) u64Max

def integerU64 (value : Nat) : Int := min (value : Int) i64Max

def integerU32 (value : Nat) : Int := value

def nonNegative (value : Int) : Nat := value.toNat

def countU32 (value : Int) : Nat :=
  if 0 ≤ value ∧ value ≤ u32Max then value.toNat else 0

theorem countU32_integerU32 {n : Nat} (h : n ≤ u32Max) : countU32 (integerU32 n) = n := by
  simp [countU32,integerU32,h]

theorem countU32_le (value : Int) : countU32 value ≤ u32Max := by
  rw [countU32]
  split_ifs with h
  · exact Int.toNat_le.mpr h.2
  · exact Nat.zero_le _

theorem integerU64_nonneg (n : Nat) : 0 ≤ integerU64 n := by
  simp only [integerU64,i64Max]
  omega

theorem integerU64_le (n : Nat) : integerU64 n ≤ i64Max := min_le_right _ _

theorem satAdd32_le (a b : Nat) : satAdd32 a b ≤ u32Max := min_le_right _ _

theorem satAdd64_of_le {a b : Nat} (h : a+b ≤ u64Max) : satAdd64 a b = a+b := min_eq_left h

theorem satAdd64_le (a b : Nat) : satAdd64 a b ≤ u64Max := min_le_right _ _

end ProjectOS
