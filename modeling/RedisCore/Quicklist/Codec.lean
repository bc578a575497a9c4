/-
# `RedisCore.Quicklist.Codec` — nodes and the compression of lzf_c.c and lzf_d.c

A quicklist leaves open how nodes are compressed.  With the functions of the repository, whatever
is in their hash table and in the memory they are given, what can be compressed can be had back.
-/
import RedisCore.Lzf.Encode
import RedisCore.Quicklist.Contents

namespace RedisCore

namespace Quicklist

open Marked Lzf

section codec

variable (mem : Nat → UInt8) (htab : UInt32 → UInt32)

/-- `lzf_compress` of a node into a block as long as its ziplist; the block is as it was
allocated. -/
def compressNodeBytes (data : Bytes) : Option Bytes :=
  if data.length < 2 ^ 32 then
    match Lzf.lzfCompress data htab ((List.range data.length).map mem) with
    | .ok r => some (r.2.take r.1)
    | .error _ => none
  else none

/-- `lzf_decompress` into a block of so many bytes. -/
def decompressNodeBytes (c : Bytes) (n : Nat) : Option Bytes := (Lzf.lzfDecompress c n).toOption

theorem decompress_compressNodeBytes {data c : Bytes}
    (h : compressNodeBytes mem htab data = some c) : decompressNodeBytes c data.length = some data := by
  unfold compressNodeBytes at h
  split at h
  case isFalse => cases h
  case isTrue hsmall =>
    rcases hr : Lzf.lzfCompress data htab ((List.range data.length).map mem) with e | r
    · rw [hr] at h
      cases h
    · rw [hr] at h
      cases h
      have hpacked := @lzfCompress_packed data ((List.range data.length).map mem) htab
        (two_le_of_packed hr) hsmall
      unfold Ends at hpacked
      rw [hr] at hpacked
      unfold decompressNodeBytes
      rw [hpacked.back data.length (Nat.le_refl _)]
      rfl

/-- The platform with the codec of the repository. -/
def lzfPlatform : Platform where
  mem := mem
  lzfCompress := compressNodeBytes mem htab
  lzfDecompress := decompressNodeBytes
  inverse := decompress_compressNodeBytes mem htab

end codec

variable {ql : QuickList} {p : Nat} {zl : Bytes} {mem : Nat → UInt8} {htab : UInt32 → UInt32}

/-- A node that is closed and opened holds the same bytes. -/
theorem gives_closeOpen (hp : p ∈ ql.nodes) (hzl : (ql.node p).zl = .raw zl)
    (hsz : (ql.node p).sz = zl.length) :
    Gives (do compressNode (lzfPlatform mem htab) p; decompressNode (lzfPlatform mem htab) p)
      (fun _ ql' => (ql'.node p).zl = .raw zl ∧ (ql'.node p).sz = zl.length ∧
        ∀ q, q ≠ p → ql'.node q = ql.node q) ql := by
  have hmeasured : Measured (lzfPlatform mem htab) (ql.node p) := by
    refine .inl ⟨zl, ?_, hsz.symm⟩
    unfold Holds
    rw [hzl]
  unfold Gives
  rw [yields_bind]
  refine yields_of_wp (wp_compressNode (fun hno => (hno hp).elim) (.inr fun _ => hmeasured)
    fun ql₁ _ hclosed => ?_)
  have hp₁ : p ∈ ql₁.nodes := hclosed.nodes ▸ hp
  have hholds₁ : Holds (lzfPlatform mem htab) (ql₁.node p) zl := by
    refine (hclosed.node p).holds zl ?_ hsz.symm
    unfold Holds
    rw [hzl]
  refine yields_of_wp (wp_decompressNode (fun hno => (hno hp₁).elim) fun ql₂ _ hopened => ?_)
  have hsz₂ : (ql₂.node p).sz = zl.length :=
    (hopened.node p).sz.trans ((hclosed.node p).sz.trans hsz)
  have hholds₂ := (hopened.node p).holds zl hholds₁ ((hclosed.node p).sz.trans hsz).symm
  have hraw := hopened.raw ⟨zl, hholds₁⟩
  refine ⟨?_, hsz₂, fun q hq => (hopened.other q hq).trans (hclosed.other q hq)⟩
  unfold QuickList.Raw at hraw
  unfold Holds at hholds₂
  rcases hzl₂ : (ql₂.node p).zl with zl' | c
  · rw [hzl₂] at hholds₂
    rw [show zl' = zl from hholds₂]
  · rw [hzl₂] at hraw
    exact hraw.elim

end Quicklist

end RedisCore
