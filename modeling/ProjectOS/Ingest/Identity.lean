import ProjectOS.Sched.Bytes
import ProjectOS.Domain.Ingest

/-! Derived identities: an evidence item is its source and its name there, a
chunk is its item, its place and its content. -/

namespace ProjectOS.Ingest
open Domain Sched

variable (blake3 : Bytes → Digest)

def beBytes64 (n : Nat) : Bytes := (List.range 8).map fun j => UInt8.ofNat (n / 2^(8*(7-j)))

def digestBytes (d : Digest) : Bytes :=
  (List.range 32).map fun j => UInt8.ofNat (d.toNat / 2^(8*(31-j)))

def digestHex (d : Digest) : String := String.ofList (hexText 64 d.toNat)

def framed (text : String) : Bytes := beBytes32 (min text.utf8ByteSize u32Max) ++ utf8Bytes text

def truncateToId {k : IdKind} (digest : Digest) : Id k := ⟨digest.extractLsb' 128 128⟩

def deriveSourceId (source_kind scope : String) : SourceId :=
  truncateToId (blake3 (utf8Bytes "projectos/source-id/v1" ++ framed source_kind ++ framed scope))

def evidenceIdInput (source_id : SourceId) (external_id : String) : Bytes :=
  utf8Bytes "projectos/evidence-id/v1" ++ idBytes source_id ++ framed external_id

def deriveEvidenceId (source_id : SourceId) (external_id : String) : EvidenceId :=
  truncateToId (blake3 (evidenceIdInput source_id external_id))

def chunkIdInput (evidence_id : EvidenceId) (kind : ChunkKind) (byte_start : Nat)
    (content_hash : Digest) : Bytes :=
  utf8Bytes "projectos/chunk-id/v1" ++ idBytes evidence_id ++ framed kind.asStr ++
    beBytes64 byte_start ++ digestBytes content_hash

def deriveChunkId (evidence_id : EvidenceId) (kind : ChunkKind) (byte_start : Nat)
    (content_hash : Digest) : ChunkId :=
  truncateToId (blake3 (chunkIdInput evidence_id kind byte_start content_hash))

theorem digestBytes_length (d : Digest) : (digestBytes d).length = 32 := by simp [digestBytes]

theorem digestBytes_inj {d e : Digest} (h : digestBytes d = digestBytes e) : d = e := by
  apply BitVec.eq_of_toNat_eq
  refine eq_of_bytes (w := 32) d.isLt e.isLt ?_
  intro n hn
  have hbyte := congrArg (fun bytes => bytes[31-n]?) h
  simp only [digestBytes,List.getElem?_map,List.getElem?_range (show 31-n < 32 by omega),
    Option.map_some,Option.some.injEq,UInt8.ofNat_eq_iff_mod_eq_toNat,UInt8.toNat_ofNat'] at hbyte
  have hpow : 2^(8*(31-(31-n))) = 256^n := by
    rw [show 31-(31-n) = n by omega,Nat.pow_mul]
  rw [hpow] at hbyte
  exact hbyte

theorem beBytes64_inj {a b : Nat} (ha : a ≤ u64Max) (hb : b ≤ u64Max)
    (h : beBytes64 a = beBytes64 b) : a = b := by
  simp only [u64Max] at ha hb
  refine eq_of_bytes (w := 8) (by omega) (by omega) ?_
  intro n hn
  have hbyte := congrArg (fun bytes => bytes[7-n]?) h
  simp only [beBytes64,List.getElem?_map,List.getElem?_range (show 7-n < 8 by omega),
    Option.map_some,Option.some.injEq,UInt8.ofNat_eq_iff_mod_eq_toNat,UInt8.toNat_ofNat'] at hbyte
  have hpow : 2^(8*(7-(7-n))) = 256^n := by
    rw [show 7-(7-n) = n by omega,Nat.pow_mul]
  rw [hpow] at hbyte
  exact hbyte

theorem chunkIdInput_start {e : EvidenceId} {k : ChunkKind} {b b' : Nat} {c c' : Digest}
    (hb : b ≤ u64Max) (hb' : b' ≤ u64Max)
    (h : chunkIdInput e k b c = chunkIdInput e k b' c') : b = b' := by
  have hfront := List.append_inj_left' h (by rw [digestBytes_length,digestBytes_length])
  exact beBytes64_inj hb hb' (List.append_cancel_left hfront)

theorem chunkIdInput_content {e e' : EvidenceId} {k k' : ChunkKind} {b b' : Nat} {c c' : Digest}
    (h : chunkIdInput e k b c = chunkIdInput e' k' b' c') : c = c' :=
  digestBytes_inj (List.append_inj_right' h (by rw [digestBytes_length,digestBytes_length]))

end ProjectOS.Ingest
