import ProjectOS.Server.Acl

/-! Which path texts the placement grammar accepts, and how many texts name
one project directory. -/

namespace ProjectOS.Server
open Lib List

/-- What `u8::from_str_radix` reads as a byte: two hexadecimal digits, or a plus
sign and one. -/
inductive Pair where
  | byte : Fin 16 → Fin 16 → Pair
  | plus : Fin 16 → Pair
  deriving DecidableEq

namespace Pair

def text : Pair → List Char
  | .byte high low => [hexDigit high.val,hexDigit low.val]
  | .plus low => ['+',hexDigit low.val]

def value : Pair → Nat
  | .byte high low => high.val*16+low.val
  | .plus low => low.val

def respell : Pair → Pair
  | .byte high low => if high = 0 then .plus low else .byte high low
  | .plus low => .byte 0 low

def Twofold : Pair → Prop
  | .byte high _ => high = 0
  | .plus _ => True

def Plus : Pair → Prop
  | .byte _ _ => False
  | .plus _ => True

theorem value_lt (p : Pair) : p.value < 256 := by
  cases p with
  | byte | plus => simp only [value]; omega

theorem text_byte (high low : Fin 16) :
    (∀ c ∈ (Pair.byte high low).text, c ≠ '+' ∧ c ≠ '/' ∧ c.isUpper = false ∧ c.utf8Size = 1) := by
  have hbytes : ∀ high low : Fin 16, (Pair.byte high low).text.all (fun c => decide
      (c ≠ '+' ∧ c ≠ '/' ∧ c.isUpper = false ∧ c.utf8Size = 1)) = true := by decide
  exact forall_mem_of_all (hbytes high low)

theorem text_mem {p : Pair} {c : Char} (h : c ∈ p.text) :
    (c = '+' → p.Plus) ∧ c ≠ '/' ∧ c.isUpper = false ∧ c.utf8Size = 1 := by
  cases p with
  | byte high low =>
    obtain ⟨hplus,hrest⟩ := text_byte high low c h
    exact ⟨fun hc => absurd hc hplus,hrest⟩
  | plus low =>
    rcases mem_cons.mp h with rfl | hc
    · exact ⟨fun _ => trivial,by decide⟩
    · obtain ⟨hplus,hrest⟩ := text_byte low low c (by simp_all [text])
      exact ⟨fun hc => absurd hc hplus,hrest⟩

theorem fromStrRadix_text (p : Pair) : fromStrRadix 16 u8Max p.text = some p.value := by
  cases p with
  | byte high low => exact fromStrRadix_digits high low
  | plus low =>
    revert low
    decide

theorem respell_value (p : Pair) : p.respell.value = p.value := by
  cases p with
  | byte high low =>
    by_cases h : high = 0
    · simp [respell,value,h]
    · simp [respell,h]
  | plus low => simp [respell,value]

theorem respell_ne {p : Pair} (h : p.Twofold) : p.respell.text ≠ p.text := by
  cases p with
  | byte high low =>
    have hzero : high = 0 := h
    have hdigit : '+' ≠ hexDigit 0 := by decide
    simp [respell,hzero,text,hdigit]
  | plus low =>
    have hdigit : hexDigit 0 ≠ '+' := by decide
    simp [respell,text,hdigit]

theorem eq_of_value {p q : Pair} (h : p.value = q.value) (hp : ¬ p.Twofold) : q = p := by
  cases p with
  | plus low => exact absurd trivial hp
  | byte high low =>
    have hhigh : high.val ≠ 0 := fun h0 => hp (Fin.ext h0)
    cases q with
    | plus low' => simp only [value] at h; omega
    | byte high' low' =>
      simp only [value] at h
      have h₁ : high' = high := Fin.ext (by omega)
      have h₂ : low' = low := Fin.ext (by omega)
      rw [h₁,h₂]

end Pair

section Spelling

def spelled (pairs : List Pair) : List Char := pairs.flatMap Pair.text

def spell (acc : Nat) (pairs : List Pair) : Nat := pairs.foldl (fun n p => n*256+p.value) acc

@[simp] theorem spelled_nil : spelled [] = [] := rfl

@[simp] theorem spelled_cons (p : Pair) (pairs : List Pair) :
    spelled (p :: pairs) = p.text ++ spelled pairs := by simp [spelled]

variable (acc : Nat)

@[simp] theorem spell_nil : spell acc [] = acc := rfl

@[simp] theorem spell_cons (p : Pair) (pairs : List Pair) :
    spell acc (p :: pairs) = spell (acc*256+p.value) pairs := rfl

theorem spelled_mem {pairs : List Pair} {c : Char} (h : c ∈ spelled pairs) :
    (c = '+' → ∃ p ∈ pairs, p.Plus) ∧ c ≠ '/' ∧ c.isUpper = false ∧ c.utf8Size = 1 := by
  obtain ⟨p,hp,hc⟩ := mem_flatMap.mp h
  exact ⟨fun hplus => ⟨p,hp,(Pair.text_mem hc).1 hplus⟩,(Pair.text_mem hc).2⟩

variable (pairs : List Pair)

theorem spelled_length : (spelled pairs).length = 2*pairs.length := by
  induction pairs with
  | nil => rfl
  | cons p pairs ih =>
    have hp : p.text.length = 2 := by cases p <;> rfl
    simp only [spelled_cons,length_append,length_cons,hp,ih]
    omega

theorem byteLen_single {text : List Char} (h : ∀ c ∈ text, c.utf8Size = 1) :
    byteLen text = text.length := by
  induction text with
  | nil => rfl
  | cons c rest ih =>
    have hrest := ih (fun d hd => h d (mem_cons_of_mem _ hd))
    simp [byteLen,hrest,h c mem_cons_self,Nat.add_comm]

theorem spell_lt : spell acc pairs < (acc+1)*256^pairs.length := by
  induction pairs generalizing acc with
  | nil => simp
  | cons p pairs ih =>
    have hp := p.value_lt
    calc spell acc (p :: pairs) < (acc*256+p.value+1)*256^pairs.length := ih _
      _ ≤ ((acc+1)*256)*256^pairs.length := Nat.mul_le_mul_right _ (by omega)
      _ = (acc+1)*256^(pairs.length+1) := by ring

theorem spell_inj {pairs pairs' : List Pair} (hlen : pairs.length = pairs'.length) {a b : Nat}
    (h : spell a pairs = spell b pairs') : a = b ∧ pairs.map Pair.value = pairs'.map Pair.value := by
  induction pairs generalizing pairs' a b with
  | nil =>
    cases pairs' with
    | nil => exact ⟨h,rfl⟩
    | cons q qs => simp at hlen
  | cons p ps ih =>
    cases pairs' with
    | nil => simp at hlen
    | cons q qs =>
      have htail : ps.length = qs.length := by simpa using hlen
      simp only [spell_cons] at h
      obtain ⟨hab,hrest⟩ := ih htail h
      have hp := p.value_lt
      have hq := q.value_lt
      have hhead : a = b ∧ p.value = q.value := by omega
      exact ⟨hhead.1,by simp [hhead.2,hrest]⟩

theorem spell_map_respell : spell acc (pairs.map Pair.respell) = spell acc pairs := by
  induction pairs generalizing acc with
  | nil => rfl
  | cons p pairs ih => simp [ih,Pair.respell_value]

theorem eq_of_values {pairs pairs' : List Pair}
    (h : pairs.map Pair.value = pairs'.map Pair.value) (hone : ∀ p ∈ pairs, ¬ p.Twofold) :
    pairs' = pairs := by
  induction pairs generalizing pairs' with
  | nil => simpa using h.symm
  | cons p ps ih =>
    cases pairs' with
    | nil => simp at h
    | cons q qs =>
      simp only [map_cons,List.cons.injEq] at h
      rw [Pair.eq_of_value h.1 (hone p mem_cons_self),
        ih h.2 (fun r hr => hone r (mem_cons_of_mem _ hr))]

theorem spelled_respell_ne {pairs : List Pair} (h : ∃ p ∈ pairs, p.Twofold) :
    spelled (pairs.map Pair.respell) ≠ spelled pairs := by
  induction pairs with
  | nil => simp at h
  | cons p pairs ih =>
    intro heq
    have hlen : p.respell.text.length = p.text.length := by
      cases p with
      | byte high low => by_cases h0 : high = 0 <;> simp [Pair.respell,Pair.text,h0]
      | plus low => rfl
    rw [map_cons,spelled_cons,spelled_cons] at heq
    obtain ⟨hhead,hrest⟩ := append_inj heq hlen
    obtain ⟨q,hq,htwo⟩ := h
    rcases mem_cons.mp hq with rfl | hq
    · exact Pair.respell_ne htwo hhead
    · exact ih ⟨q,hq,htwo⟩ hrest

theorem readBytes_spelled : readBytes acc (spelled pairs) = some (spell acc pairs) := by
  induction pairs generalizing acc with
  | nil => rfl
  | cons p pairs ih =>
    have hlower : ∀ c ∈ p.text, c.isUpper = false := fun c hc => (Pair.text_mem hc).2.2.1
    have hread := p.fromStrRadix_text
    cases p with
    | byte high low | plus low =>
      simp only [Pair.text,mem_cons,not_mem_nil,or_false,forall_eq_or_imp,forall_eq]
        at hlower hread
      simp only [spelled_cons,Pair.text,cons_append,nil_append,readBytes,hlower,
        Bool.false_eq_true,or_self,if_false,hread,ih,spell_cons]

theorem spelled_of_readBytes {acc n : Nat} {text : List Char} (h : readBytes acc text = some n) :
    ∃ pairs, text = spelled pairs := by
  induction acc, text using readBytes.induct with
  | case1 acc => exact ⟨[],rfl⟩
  | case2 acc c => simp [readBytes] at h
  | case3 acc a b rest hu => simp [readBytes,hu] at h
  | case4 acc a b rest hu hn => simp [readBytes,hu,hn] at h
  | case5 acc a b rest hu byte hb ih =>
    simp only [readBytes,hu,if_false,hb] at h
    simp only [not_or,Bool.not_eq_true] at hu
    obtain ⟨pairs,rfl⟩ := ih h
    rcases fromStrRadix_pair hb with ⟨rfl,hlow⟩ | ⟨x,y,hx,hy,_⟩
    · obtain ⟨hlt,rfl⟩ := toDigit_hexDigit hlow hu.2
      exact ⟨.plus ⟨byte,hlt⟩ :: pairs,rfl⟩
    · obtain ⟨hxlt,rfl⟩ := toDigit_hexDigit hx hu.1
      obtain ⟨hylt,rfl⟩ := toDigit_hexDigit hy hu.2
      exact ⟨.byte ⟨x,hxlt⟩ ⟨y,hylt⟩ :: pairs,rfl⟩

theorem byteLen_spelled : byteLen (spelled pairs) = 2*pairs.length := by
  rw [byteLen_single (fun c hc => (spelled_mem hc).2.2.2),spelled_length]

theorem posFoundationHex_iff {segment : List Char} {workspace : WorkspaceId} :
    posFoundationHex segment = some workspace ↔
      ∃ pairs, pairs.length = 16 ∧ segment = spelled pairs ∧
        workspace = ⟨BitVec.ofNat 128 (spell 0 pairs)⟩ := by
  constructor
  · intro h
    unfold posFoundationHex at h
    split_ifs at h with hlen
    obtain ⟨n,hn,hid⟩ := Option.map_eq_some_iff.mp h
    obtain ⟨pairs,rfl⟩ := spelled_of_readBytes hn
    rw [readBytes_spelled,Option.some.injEq] at hn
    rw [byteLen_spelled,not_not] at hlen
    exact ⟨pairs,by omega,rfl,by rw [← hid,hn]⟩
  · rintro ⟨pairs,hlen,rfl,rfl⟩
    simp [posFoundationHex,byteLen_spelled,hlen,readBytes_spelled]

theorem spell_workspace {pairs pairs' : List Pair} (h : pairs.length = 16) (h' : pairs'.length = 16)
    (heq : (⟨BitVec.ofNat 128 (spell 0 pairs)⟩ : WorkspaceId) =
      ⟨BitVec.ofNat 128 (spell 0 pairs')⟩) : pairs.map Pair.value = pairs'.map Pair.value := by
  have hlt := spell_lt 0 pairs
  have hlt' := spell_lt 0 pairs'
  rw [h] at hlt
  rw [h'] at hlt'
  norm_num at hlt hlt'
  have hnum : spell 0 pairs = spell 0 pairs' := by
    have hbits := congrArg (fun id => id.num) heq
    simpa [Id.num,Nat.mod_eq_of_lt hlt,Nat.mod_eq_of_lt hlt'] using hbits
  exact (spell_inj (h.trans h'.symm) hnum).2

end Spelling

section Grammar

def ProjectName (name : List Char) : Prop :=
  1 ≤ name.length ∧ name.length ≤ 64 ∧
    ∀ c ∈ name, (('A' ≤ c ∧ c ≤ 'Z') ∨ ('a' ≤ c ∧ c ≤ 'z') ∨ ('0' ≤ c ∧ c ≤ '9')) ∨ c = '_' ∨ c = '-'

def placed (data_root : String) (segment name : List Char) : List Char :=
  workspacesRoot data_root ++ '/' :: (segment ++ '/' :: (name ++ ".pos".toList))

def NamesProject (data_root path : String) (workspace : WorkspaceId) (name : List Char) : Prop :=
  path.toList = placed data_root workspace.toHex.toList name ∧ ProjectName name

def AcceptedAs (data_root path : String) (workspace : WorkspaceId) (name : List Char) : Prop :=
  parsePlacement data_root path = .ok workspace ∧
    ∃ segment, '/' ∉ segment ∧ path.toList = placed data_root segment name

def Spells (P : Pair → Prop) (data_root path : String) : Prop :=
  ∃ pairs name, pairs.length = 16 ∧ ProjectName name ∧
    path.toList = placed data_root (spelled pairs) name ∧ ∃ p ∈ pairs, P p

theorem isAlphanum_iff (c : Char) : c.isAlphanum = true ↔
    ('A' ≤ c ∧ c ≤ 'Z') ∨ ('a' ≤ c ∧ c ≤ 'z') ∨ ('0' ≤ c ∧ c ≤ '9') := by
  change ((decide ('A' ≤ c ∧ c ≤ 'Z') || (decide ('a' ≤ c) && decide (c ≤ 'z'))) ||
    (decide ('0' ≤ c) && decide (c ≤ '9'))) = true ↔ _
  simp [or_assoc]

theorem nameOk_iff (name : List Char) : nameOk name = true ↔ ProjectName name := by
  have hclass (c : Char) : (c.isAlphanum || c == '-' || c == '_') = true ↔
      (('A' ≤ c ∧ c ≤ 'Z') ∨ ('a' ≤ c ∧ c ≤ 'z') ∨ ('0' ≤ c ∧ c ≤ '9')) ∨ c = '_' ∨ c = '-' := by
    simp only [Bool.or_eq_true,isAlphanum_iff,beq_iff_eq]
    tauto
  have hascii (h : ∀ c ∈ name, (c.isAlphanum || c == '-' || c == '_') = true) :
      byteLen name = name.length := by
    refine byteLen_single fun c hc => ?_
    have hle : c ≤ 'z' := by
      rcases (hclass c).mp (h c hc) with (hu | hl | hd) | rfl | rfl
      · exact le_trans hu.2 (by decide)
      · exact hl.2
      · exact le_trans hd.2 (by decide)
      · decide
      · decide
    have hz : 'z'.val ≤ 127 := by decide
    exact Char.utf8Size_eq_one_iff.mpr (UInt32.le_trans (Char.le_def.mp hle) hz)
  simp only [nameOk,Bool.and_eq_true,Bool.not_eq_true',isEmpty_eq_false_iff,
    all_eq_true,ProjectName,← hclass]
  constructor
  · rintro ⟨⟨hne,hlen⟩,hall⟩
    exact ⟨length_pos_iff.mpr hne,hascii hall ▸ of_decide_eq_true hlen,hall⟩
  · rintro ⟨hpos,hlen,hall⟩
    exact ⟨⟨length_pos_iff.mp hpos,decide_eq_true ((hascii hall).trans_le hlen)⟩,hall⟩

variable {data_root path : String}

theorem placed_inj {segment segment' name name' : List Char}
    (hs : '/' ∉ segment) (hs' : '/' ∉ segment')
    (h : placed data_root segment name = placed data_root segment' name') :
    segment = segment' ∧ name = name' := by
  have htail := (List.cons.inj (append_cancel_left h)).2
  have hsplit := splitOnce_append (name ++ ".pos".toList) hs
  rw [htail,splitOnce_append _ hs'] at hsplit
  simp only [Option.some.injEq,Prod.mk.injEq] at hsplit
  exact ⟨hsplit.1.symm,append_cancel_right hsplit.2.symm⟩

theorem slash_not_mem_spelled (pairs : List Pair) : '/' ∉ spelled pairs :=
  fun h => (spelled_mem h).2.1 rfl

variable {workspace : WorkspaceId}

theorem acceptedAs_iff {name : List Char} :
    AcceptedAs data_root path workspace name ↔
      ∃ pairs, pairs.length = 16 ∧ ProjectName name ∧
        path.toList = placed data_root (spelled pairs) name ∧
        workspace = ⟨BitVec.ofNat 128 (spell 0 pairs)⟩ := by
  constructor
  · rintro ⟨hok,segment,hslash,hpath⟩
    obtain ⟨segment',name',hpath',hid,hname⟩ := parsePlacement_eq_ok.mp hok
    obtain ⟨rfl,rfl⟩ := placed_inj hslash (slash_not_mem_segment hid) (hpath.symm.trans hpath')
    obtain ⟨pairs,hlen,rfl,hw⟩ := posFoundationHex_iff.mp hid
    exact ⟨pairs,hlen,(nameOk_iff name).mp hname,hpath,hw⟩
  · rintro ⟨pairs,hlen,hname,hpath,hw⟩
    refine ⟨parsePlacement_eq_ok.mpr ⟨spelled pairs,name,hpath,?_,(nameOk_iff name).mpr hname⟩,
      spelled pairs,slash_not_mem_spelled pairs,hpath⟩
    exact posFoundationHex_iff.mpr ⟨pairs,hlen,rfl,hw⟩

theorem accepted_named
    (h : parsePlacement data_root path = .ok workspace) :
    ∃ name, AcceptedAs data_root path workspace name := by
  obtain ⟨segment,name,hpath,hid,_⟩ := parsePlacement_eq_ok.mp h
  exact ⟨name,h,segment,slash_not_mem_segment hid,hpath⟩

theorem plus_not_mem_toHex (workspace : WorkspaceId) : '+' ∉ workspace.toHex.toList := by
  rw [Id.toHex,String.toList_ofList]
  generalize workspace.num = n
  induction 32 generalizing n with
  | zero => simp [hexText]
  | succ w ih =>
    have hdigit : ∀ x : Fin 16, '+' ≠ hexDigit x.val := by decide
    have hlast := hdigit ⟨n%16,Nat.mod_lt _ (by decide)⟩
    simp [hexText,ih,hlast]

theorem plus_mem_spelled {pairs : List Pair} : '+' ∈ spelled pairs ↔ ∃ p ∈ pairs, p.Plus := by
  constructor
  · intro h
    exact (spelled_mem h).1 rfl
  · rintro ⟨p,hp,hplus⟩
    cases p with
    | byte high low => exact absurd hplus id
    | plus low => exact mem_flatMap.mpr ⟨_,hp,mem_cons_self⟩

/-- The grammar is exact on a path just when its workspace segment borrows no
plus sign, and the path is the only text of its project just when every byte of
the segment has one spelling. -/
theorem parsePlacement_exact (data_root path : String) :
    (((∀ workspace, parsePlacement data_root path = .ok workspace ↔
          ∃ name, NamesProject data_root path workspace name) ∧
        ∀ workspace name segment, AcceptedAs data_root path workspace name →
          path.toList = placed data_root segment name → '/' ∉ segment →
          String.ofList segment = workspace.toHex) ↔
      ¬ Spells Pair.Plus data_root path) ∧
    ((∀ other workspace name, AcceptedAs data_root path workspace name →
        AcceptedAs data_root other workspace name → other = path) ↔
      ¬ Spells Pair.Twofold data_root path) := by
  refine ⟨⟨?_,?_⟩,?_,?_⟩
  · rintro ⟨-,hdirectory⟩ ⟨pairs,name,hlen,hname,hpath,hplus⟩
    have hseg := hdirectory _ name (spelled pairs) (acceptedAs_iff.mpr ⟨pairs,hlen,hname,hpath,rfl⟩)
      hpath (slash_not_mem_spelled pairs)
    have hmem := plus_not_mem_toHex (⟨BitVec.ofNat 128 (spell 0 pairs)⟩ : WorkspaceId)
    rw [← hseg,String.toList_ofList] at hmem
    exact hmem (plus_mem_spelled.mpr hplus)
  · intro hplain
    have hseg : ∀ workspace name segment, AcceptedAs data_root path workspace name →
        path.toList = placed data_root segment name → '/' ∉ segment →
        String.ofList segment = workspace.toHex := by
      intro workspace name segment hacc hpath hslash
      obtain ⟨pairs,hlen,hname,hpath',hw⟩ := acceptedAs_iff.mp hacc
      obtain ⟨rfl,-⟩ := placed_inj hslash (slash_not_mem_spelled pairs) (hpath.symm.trans hpath')
      refine posFoundationHex_plain (posFoundationHex_iff.mpr ⟨pairs,hlen,rfl,hw⟩) fun hmem => ?_
      exact hplain ⟨pairs,name,hlen,hname,hpath',plus_mem_spelled.mp hmem⟩
    refine ⟨fun workspace => ⟨fun hok => ?_,?_⟩,hseg⟩
    · obtain ⟨name,hacc⟩ := accepted_named hok
      obtain ⟨pairs,hlen,hname,hpath,hw⟩ := acceptedAs_iff.mp hacc
      have hhex := hseg workspace name _ hacc hpath (slash_not_mem_spelled pairs)
      exact ⟨name,by rw [← hhex,String.toList_ofList]; exact hpath,hname⟩
    · rintro ⟨name,hpath,hname⟩
      exact parsePlacement_eq_ok.mpr
        ⟨_,name,hpath,posFoundationHex_toHex workspace,(nameOk_iff name).mpr hname⟩
  · rintro honly ⟨pairs,name,hlen,hname,hpath,htwo⟩
    -- the same bytes, each spelled the other way
    have hother := honly (String.ofList (placed data_root (spelled (pairs.map Pair.respell)) name)) _
      name (acceptedAs_iff.mpr ⟨pairs,hlen,hname,hpath,rfl⟩)
      (acceptedAs_iff.mpr ⟨_,by simpa using hlen,hname,String.toList_ofList,
        by rw [spell_map_respell]⟩)
    rw [← hother,String.toList_ofList] at hpath
    exact spelled_respell_ne htwo
      (placed_inj (slash_not_mem_spelled _) (slash_not_mem_spelled _) hpath).1
  · intro hone other workspace name hacc hacc'
    obtain ⟨pairs,hlen,hname,hpath,hw⟩ := acceptedAs_iff.mp hacc
    obtain ⟨pairs',hlen',-,hpath',hw'⟩ := acceptedAs_iff.mp hacc'
    have hvalues := spell_workspace hlen hlen' (hw.symm.trans hw')
    have hsame := eq_of_values hvalues
      (fun p hp htwo => hone ⟨pairs,name,hlen,hname,hpath,p,hp,htwo⟩)
    rw [hsame] at hpath'
    exact String.toList_injective (hpath'.trans hpath.symm)

/-- A segment that borrows a plus sign is accepted for a workspace whose
directory it does not name, next to the text that does. -/
theorem plus_sign_accepted : ¬ ∀ data_root path,
    (∀ workspace, parsePlacement data_root path = .ok workspace ↔
      ∃ name, NamesProject data_root path workspace name) ∧
    ∀ other workspace name, AcceptedAs data_root path workspace name →
      AcceptedAs data_root other workspace name → other = path := by
  intro h
  obtain ⟨hexact,-⟩ :=
    h "/srv/pos-data" "/srv/pos-data/workspaces/+a000000000000000000000000000000/plan.pos"
  have hok : parsePlacement "/srv/pos-data"
      "/srv/pos-data/workspaces/+a000000000000000000000000000000/plan.pos" =
      .ok ⟨BitVec.ofNat 128 (10*256^15)⟩ := by decide +kernel
  obtain ⟨name,hpath,-⟩ := (hexact _).mp hok
  have hplaced : "/srv/pos-data/workspaces/+a000000000000000000000000000000/plan.pos".toList =
      placed "/srv/pos-data" "+a000000000000000000000000000000".toList "plan".toList := by decide
  have hslash : '/' ∉ (⟨BitVec.ofNat 128 (10*256^15)⟩ : WorkspaceId).toHex.toList :=
    slash_not_mem_segment (posFoundationHex_toHex _)
  have hseg := (placed_inj (by decide) hslash (hplaced.symm.trans hpath)).1
  have hplain := plus_not_mem_toHex (⟨BitVec.ofNat 128 (10*256^15)⟩ : WorkspaceId)
  rw [← hseg] at hplain
  exact hplain (by decide)

end Grammar

end ProjectOS.Server
