import Prolly.Gc
import Prolly.NodeRoundTrip

/-!
# Prolly.FormatCodec

Tree formats and their canonical bytes (`format.rs`) determine each other. Every reader of the
descriptor accepts one spelling only: what it returns, written again, is what it consumed
(`readUint_eq_ok`, `readLayout_eq_ok`, …).
-/

namespace Prolly

open PrefixCode

namespace TreeFormat

variable {cursor rest : Bytes} {bytes : Bytes} {n : Nat}

theorem read_eq_ok {len : Nat} (h : read data len cursor = .ok (bytes, rest)) :
    cursor = bytes ++ rest ∧ bytes.length = len := by
  rw [read] at h
  split at h
  · next hlen =>
    cases h
    exact ⟨(List.take_append_drop len cursor).symm, List.length_take_of_le hlen⟩
  · split at h <;> cases h

theorem readUint_eq_ok {width : Nat} (h : readUint data width cursor = .ok (n, rest)) :
    cursor = beBytes width n ++ rest ∧ n < 256 ^ width := by
  obtain ⟨⟨bytes, rest'⟩, hread, h⟩ := of_bind h
  cases h
  obtain ⟨rfl, rfl⟩ := read_eq_ok hread
  exact ⟨congrArg (· ++ rest) (bigEndian_ofBigEndian bytes).symm, ofBigEndian_lt bytes⟩

theorem readUint_tag_eq_ok (h : readUint data 1 cursor = .ok (n, rest)) :
    cursor = UInt8.ofNat n :: rest := by
  obtain ⟨rfl, -⟩ := readUint_eq_ok h
  simp [bigEndian]

theorem readUint_u64_eq_ok (h : readUint data 8 cursor = .ok (n, rest)) :
    cursor = beBytes 8 (UInt64.ofNat n).toNat ++ rest := by
  obtain ⟨hcursor, hn⟩ := readUint_eq_ok h
  rwa [UInt64.toNat_ofNat_of_lt' (by simpa using hn)]

theorem readVec_eq_ok (h : readVec data cursor = .ok (bytes, rest)) :
    cursor = encodeBytes bytes ++ rest := by
  obtain ⟨⟨len, cursor'⟩, hlen, h⟩ := of_bind h
  obtain ⟨hcursor, -⟩ := readUint_eq_ok hlen
  obtain ⟨hrest, hlength⟩ := read_eq_ok h
  rw [hcursor, hrest, encodeBytes, hlength, List.append_assoc]

theorem readString_eq_ok {text : String} (h : readString data cursor = .ok (text, rest)) :
    cursor = encodeBytes (strBytes text) ++ rest := by
  obtain ⟨⟨bytes, cursor'⟩, hvec, h⟩ := of_bind h
  dsimp only at h
  split at h
  · next text' htext =>
    cases h
    rw [String.fromUTF8?] at htext
    split at htext
    · cases htext
      exact readVec_eq_ok hvec
    · cases htext
  · cases h

theorem readMeasure_eq_ok {measure : ChunkMeasure}
    (h : readMeasure data cursor = .ok (measure, rest)) :
    cursor = encodeMeasure measure :: rest := by
  obtain ⟨⟨tag, cursor'⟩, htag, h⟩ := of_bind h
  rw [readUint_tag_eq_ok htag]
  dsimp only at h
  split at h <;> cases h <;> rfl

theorem readInput_eq_ok {input : BoundaryInput} (h : readInput data cursor = .ok (input, rest)) :
    cursor = encodeInput input :: rest := by
  obtain ⟨⟨tag, cursor'⟩, htag, h⟩ := of_bind h
  rw [readUint_tag_eq_ok htag]
  dsimp only at h
  split at h <;> cases h <;> rfl

theorem readHash_eq_ok {hash : HashAlgorithm} (h : readHash data cursor = .ok (hash, rest)) :
    cursor = encodeHash hash :: rest := by
  obtain ⟨⟨tag, cursor'⟩, htag, h⟩ := of_bind h
  rw [readUint_tag_eq_ok htag]
  dsimp only at h
  split at h <;> cases h
  rfl

theorem readFlag_eq_ok {flag : Bool} (h : readFlag data cursor = .ok (flag, rest)) :
    cursor = (if flag then 1 else 0) :: rest := by
  obtain ⟨⟨tag, cursor'⟩, htag, h⟩ := of_bind h
  rw [readUint_tag_eq_ok htag]
  dsimp only at h
  split at h <;> cases h <;> rfl

theorem readRule_eq_ok {rule : BoundaryRule} (h : readRule data cursor = .ok (rule, rest)) :
    cursor = encodeRule rule ++ rest := by
  obtain ⟨⟨tag, cursor'⟩, htag, h⟩ := of_bind h
  rw [readUint_tag_eq_ok htag]
  dsimp only at h
  split at h
  · obtain ⟨⟨factor, cursor''⟩, hfactor, h⟩ := of_bind h
    cases h
    obtain ⟨rfl, hlt⟩ := readUint_eq_ok hfactor
    rw [encodeRule, UInt32.toNat_ofNat_of_lt' (by simpa using hlt)]
    rfl
  · obtain ⟨⟨shape, cursor''⟩, hshape, h⟩ := of_bind h
    cases h
    obtain ⟨rfl, hlt⟩ := readUint_eq_ok hshape
    rw [encodeRule, UInt32.toNat_ofNat_of_lt' (by simpa using hlt)]
    rfl
  · obtain ⟨⟨window, cursor''⟩, hwindow, h⟩ := of_bind h
    cases h
    obtain ⟨rfl, hlt⟩ := readUint_eq_ok hwindow
    rw [encodeRule, UInt16.toNat_ofNat_of_lt' (by simpa using hlt)]
    rfl
  · cases h

theorem readChunking_eq_ok {spec : ChunkingSpec} (h : readChunking data cursor = .ok (spec, rest)) :
    cursor = encodeChunking spec ++ rest := by
  obtain ⟨⟨measure, c1⟩, hmeasure, h⟩ := of_bind h
  obtain ⟨⟨input, c2⟩, hinput, h⟩ := of_bind h
  obtain ⟨⟨hash, c3⟩, hhash, h⟩ := of_bind h
  obtain ⟨⟨rule, c4⟩, hrule, h⟩ := of_bind h
  obtain ⟨⟨min, c5⟩, hmin, h⟩ := of_bind h
  obtain ⟨⟨target, c6⟩, htarget, h⟩ := of_bind h
  obtain ⟨⟨max, c7⟩, hmax, h⟩ := of_bind h
  obtain ⟨⟨hashSeed, c8⟩, hseed, h⟩ := of_bind h
  obtain ⟨⟨levelSalt, c9⟩, hsalt, h⟩ := of_bind h
  obtain ⟨⟨hardMax, c10⟩, hhard, h⟩ := of_bind h
  cases h
  rw [readMeasure_eq_ok hmeasure, readInput_eq_ok hinput, readHash_eq_ok hhash,
    readRule_eq_ok hrule,
    readUint_u64_eq_ok hmin, readUint_u64_eq_ok htarget, readUint_u64_eq_ok hmax,
    readUint_u64_eq_ok hseed, readFlag_eq_ok hsalt, readUint_u64_eq_ok hhard]
  simp [encodeChunking]

theorem readLayout_eq_ok {layout : NodeLayoutSpec}
    (h : readLayout data cursor = .ok (layout, rest)) : cursor = encodeLayout layout ++ rest := by
  obtain ⟨⟨tag, cursor'⟩, htag, h⟩ := of_bind h
  rw [readUint_tag_eq_ok htag]
  dsimp only at h
  split at h
  · cases h
    rfl
  · cases h
    rfl
  · cases h
    rfl
  · obtain ⟨⟨id, c1⟩, hid, h⟩ := of_bind h
    obtain ⟨⟨parameters, c2⟩, hparameters, h⟩ := of_bind h
    cases h
    dsimp only at hparameters
    rw [readString_eq_ok hid, readVec_eq_ok hparameters]
    simp [encodeLayout]
  · cases h

theorem readEncoding_eq_ok {encoding : Encoding}
    (h : readEncoding data cursor = .ok (encoding, rest)) :
    cursor = encodeValueEncoding encoding ++ rest := by
  obtain ⟨⟨tag, cursor'⟩, htag, h⟩ := of_bind h
  rw [readUint_tag_eq_ok htag]
  dsimp only at h
  split at h
  · cases h
    rfl
  · cases h
    rfl
  · cases h
    rfl
  · obtain ⟨⟨name, c1⟩, hname, h⟩ := of_bind h
    cases h
    rw [readString_eq_ok hname]
    rfl
  · cases h

/-- What decodes is the canonical spelling of a valid format. -/
theorem canonicalBytes_of_fromCanonicalBytes {format : TreeFormat}
    (h : fromCanonicalBytes bytes = .ok format) :
    format.canonicalBytes = .ok bytes ∧ format.validate = .ok () := by
  obtain ⟨⟨magic, c1⟩, hmagic, h⟩ := of_bind h
  dsimp only at h
  split at h
  · cases h
  next hcrft =>
  obtain ⟨⟨version, c2⟩, hversion, h⟩ := of_bind h
  dsimp only at h
  split at h
  · cases h
  next hone =>
  obtain ⟨⟨chunking, c3⟩, hchunking, h⟩ := of_bind h
  obtain ⟨⟨layout, c4⟩, hlayout, h⟩ := of_bind h
  obtain ⟨⟨encoding, c5⟩, hencoding, h⟩ := of_bind h
  dsimp only at h
  split at h
  · cases h
  next hend =>
  obtain ⟨_, hvalid, h⟩ := of_bind h
  cases h
  refine ⟨?_, hvalid⟩
  rw [not_not] at hcrft hone hend
  dsimp only at hlayout hencoding
  rw [(read_eq_ok hmagic).1, readUint_tag_eq_ok hversion, readChunking_eq_ok hchunking,
    readLayout_eq_ok hlayout, readEncoding_eq_ok hencoding, hcrft, hone, hend,
      canonicalBytes, hvalid]
  simp [formatMagic]

/-- Formats and canonical descriptors determine each other, so formats with one digest are equal
where their descriptors do not collide. -/
theorem canonicalBytes_bijective (d : Digests) :
    (∀ format : TreeFormat, format.Sized → format.validate = .ok () →
      ∃ bytes, format.canonicalBytes = .ok bytes ∧ fromCanonicalBytes bytes = .ok format) ∧
    (∀ bytes format, fromCanonicalBytes bytes = .ok format →
      format.canonicalBytes = .ok bytes ∧ format.validate = .ok ()) ∧
    ∀ a b : TreeFormat, a.Sized → b.Sized →
      (∀ x y, a.canonicalBytes = .ok x → b.canonicalBytes = .ok y → d.sha256 x = d.sha256 y →
        x = y) →
      ∀ cid, a.digest d = .ok cid → b.digest d = .ok cid → a = b := by
  refine ⟨fun format hsized hvalid => ?_, fun bytes format => canonicalBytes_of_fromCanonicalBytes,
    fun a b ha hb hcollision cid hda hdb => ?_⟩
  · obtain ⟨bytes, hbytes⟩ : ∃ bytes, format.canonicalBytes = .ok bytes := by
      rw [canonicalBytes, hvalid]
      exact ⟨_, rfl⟩
    exact ⟨bytes, hbytes, fromCanonicalBytes_canonicalBytes hsized hbytes⟩
  · obtain ⟨x, hx, rfl⟩ := map_eq_ok.mp hda
    obtain ⟨y, hy, hdigest⟩ := map_eq_ok.mp hdb
    obtain rfl := hcollision x y hx hy hdigest.symm
    have hax := fromCanonicalBytes_canonicalBytes ha hx
    have hbx := fromCanonicalBytes_canonicalBytes hb hy
    exact Except.ok.inj (hax.symm.trans hbx)

/-- A format with an application's layout and encoding. -/
def custom : TreeFormat := { nodeLayout := .custom "grid" [7], valueEncoding := .custom "rle" }

theorem canonicalBytes_bijective_custom : ∃ bytes, custom.canonicalBytes = .ok bytes ∧
    fromCanonicalBytes bytes = .ok custom ∧ custom.validate = .ok () ∧
    custom = { nodeLayout := .custom "grid" [7], valueEncoding := .custom "rle" } := by
  have hsized : custom.Sized := by
    constructor
    · intro id parameters h
      cases h
      decide
    · intro name h
      cases h
      decide
  obtain ⟨hread, hwritten, hdigest⟩ :=
    canonicalBytes_bijective ⟨fun _ => Cid.filled 0, fun _ _ => 0⟩
  obtain ⟨bytes, hbytes, hback⟩ := hread custom hsized (by decide)
  have hd : custom.digest ⟨fun _ => Cid.filled 0, fun _ _ => 0⟩ = .ok (Cid.filled 0) := by
    rw [digest, hbytes]
    rfl
  refine ⟨bytes, hbytes, hback, (hwritten bytes custom hback).2,
    hdigest custom custom hsized hsized (fun x y hx hy _ => ?_) _ hd hd⟩
  exact Except.ok.inj (hx.symm.trans hy)

end TreeFormat

end Prolly
