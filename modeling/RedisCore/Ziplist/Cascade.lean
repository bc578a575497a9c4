/-
# `RedisCore.Ziplist.Cascade` — repairing the chain of lengths (`__ziplistCascadeUpdate`)

`Misrecorded zl es cur fs old` says that the bytes `zl` are a ziplist but for one field: the
entry behind `cur` records the length `old`, whatever the length of `cur` is.  Where a ziplist
exists at all with the same entries and with no shorter fields, `__ziplistCascadeUpdate` makes
one of these bytes (`cascadeUpdate_restores`): no field grows that has not to, so the result is
the smallest one.

It does not exist where the fields that have to grow bring the list to 2^32 bytes
(`cascadeUpdate_overflows`).
-/
import RedisCore.Ziplist.Runs

namespace RedisCore

namespace Ziplist

/-- The bytes are a ziplist, but the entry behind `cur` records the length `old`. -/
structure Misrecorded (zl : Bytes) (es : List Entry) (cur : Entry) (fs : List Entry) (old : Nat) :
    Prop where
  layout : ∃ count, zl = header (11 + size (es ++ cur :: fs)) (tailOffset (es ++ cur :: fs)) count ++
      (encodeEntries 0 (es ++ [cur]) ++ (encodeEntries old fs ++ [UInt8.ofNat ZIP_END])) ∧
    Counted count (es ++ cur :: fs).length
  fits : Fits 0 (es ++ [cur])
  recorded : Fits old fs
  width : old < 2 ^ 32
  small : 11 + size (es ++ cur :: fs) < 2 ^ 32

/-- The same entry, where the prevlen field may have got five bytes. -/
def Grown (e e' : Entry) : Prop := e' = e ∨ e' = e.widen

variable {zl : Bytes} {es fs gs : List Entry} {cur e e' : Entry} {prev old : Nat}

theorem Grown.rawLen_le (h : Grown e e') : e.rawLen ≤ e'.rawLen := by
  rcases h with rfl | rfl
  · exact Nat.le_refl _
  · have hwide := Entry.rawLen_widen e
    unfold Entry.rawLen Entry.prevSize at *
    split <;> omega

theorem Grown.bytes_eq (h : Grown e e') : e'.bytes = e.bytes := by
  rcases h with rfl | rfl
  · rfl
  · exact Entry.bytes_widen e

/-- A field of five bytes stays one. -/
theorem Grown.wide (h : Grown e e') (hw : e.wide = true) : e'.wide = true := by
  rcases h with rfl | rfl
  · exact hw
  · rfl

theorem contents_grown (h : List.Forall₂ Grown fs gs) : contents gs = contents fs := by
  induction h with
  | nil => rfl
  | cons he _ ih => rw [contents_cons, contents_cons, he.bytes_eq, ih]

theorem size_grown (h : List.Forall₂ Grown fs gs) : size fs ≤ size gs := by
  induction h with
  | nil => exact Nat.le_refl _
  | cons he _ ih =>
      rw [size_cons, size_cons]
      exact Nat.add_le_add he.rawLen_le ih

theorem grown_refl (fs : List Entry) : List.Forall₂ Grown fs fs := by
  induction fs with
  | nil => exact .nil
  | cons e fs ih => exact .cons (.inl rfl) ih

/-- The cascade makes fields grow, and nothing else. -/
theorem settle_grown (prev : Nat) (fs : List Entry) : List.Forall₂ Grown fs (settle prev fs) := by
  induction fs generalizing prev with
  | nil => exact .nil
  | cons e fs ih =>
      unfold settle
      split
      · exact .cons (.inr rfl) (ih _)
      · exact grown_refl _

/-- Whatever else fits, the cascade takes no more bytes. -/
theorem size_settle_le_grown (h : List.Forall₂ Grown fs gs) (hfits : Fits prev gs) :
    size (settle prev fs) ≤ size gs := by
  induction h generalizing prev with
  | nil => exact Nat.le_refl _
  | @cons e g fs gs he hrest ih =>
      unfold settle
      split
      · next hgrow =>
          -- the field had to grow, so it has grown in `gs` too
          obtain rfl : g = e.widen := by
            rcases he with rfl | hwiden
            · exact absurd (hfits.1 hgrow.1) (Nat.not_lt_of_le hgrow.2)
            · exact hwiden
          rw [size_cons, size_cons]
          exact Nat.add_le_add_left (ih hfits.2) _
      · rw [size_cons, size_cons]
        exact Nat.add_le_add he.rawLen_le (size_grown hrest)

/-- **`__ziplistCascadeUpdate`** makes a ziplist again: all entries are as they were but for
fields that have grown, and as long as there is such a ziplist, it is found. -/
theorem cascadeUpdate_restores (mem : Nat → UInt8) (h : Misrecorded zl es cur fs old)
    (hroom : ∃ gs, List.Forall₂ Grown fs gs ∧ Fits cur.rawLen gs ∧
      11 + size (es ++ cur :: gs) < 2 ^ 32) :
    ∃ zl' fs', ziplistCascadeUpdate mem zl (10 + size es) = some zl' ∧
      Represents zl' (es ++ cur :: fs') ∧ List.Forall₂ Grown fs fs' ∧
      contents (es ++ cur :: fs') = contents (es ++ cur :: fs) := by
  obtain ⟨count, rfl, hcount⟩ := h.layout
  obtain ⟨hes, hcur⟩ := fits_append.mp h.fits
  have hgrown := settle_grown cur.rawLen fs
  have hfs : Fits cur.rawLen (settle cur.rawLen fs) := settle_fits h.recorded
  have hsmall : 11 + size (es ++ cur :: settle cur.rawLen fs) < 2 ^ 32 := by
    obtain ⟨gs, hgs, hfits, hlt⟩ := hroom
    have hle := size_settle_le_grown hgs hfits
    rw [size_append, size_cons] at hlt ⊢
    omega
  have hq : lastLen 0 es < 2 ^ 32 := by
    have hsize := h.small
    rw [size_append] at hsize
    have hle : lastLen 0 es ≤ 0 ∨ lastLen 0 es ≤ size es := lastLen_le
    omega
  have hbytes : ∀ gs, 11 + size (es ++ cur :: gs) =
      11 + (encodeEntries 0 es).length + cur.rawLen + size gs := by
    intro gs
    rw [length_encodeEntries, size_append, size_cons]
    omega
  have htail : ∀ gs, tailOffset (es ++ cur :: gs) =
      10 + (encodeEntries 0 es).length + size (cur :: gs).dropLast := by
    intro gs
    rw [tailOffset, List.dropLast_append_of_ne_nil (List.cons_ne_nil _ _), size_append,
      length_encodeEntries]
    exact (Nat.add_assoc _ _ _).symm
  have hrun := @cascadeUpdate_spec _ _ count fs mem (encodeEntries 0 es) cur _ old _ _ hcur hq
    h.recorded h.width (by rw [← hbytes]; exact hsmall) (hbytes fs) (htail fs) (hbytes _) (htail _)
    (10 + size es) (by rw [length_encodeEntries])
  rw [encodeEntries_append, List.append_assoc]
  refine ⟨_, settle cur.rawLen fs, hrun, ⟨⟨count, ?_, ?_⟩, ?_, hsmall⟩, hgrown, ?_⟩
  · rw [layout, encodeEntries_append, @encodeEntries_cons _ cur (settle cur.rawLen fs)]
    simp only [List.append_assoc]
  · have hlen : (es ++ cur :: settle cur.rawLen fs).length = (es ++ cur :: fs).length := by
      simp only [List.length_append, List.length_cons, length_settle]
    rw [hlen]
    exact hcount
  · exact fits_append.mpr ⟨hes, hcur.1, hfs⟩
  · rw [contents_append, contents_append, contents_cons, contents_cons, contents_grown hgrown]

theorem bigString_lt : (List.replicate 300 (0 : UInt8)).length < 2 ^ 32 := by
  rw [List.length_replicate]
  decide

/-- An entry of 303 bytes. -/
def bigEntry : Entry := strEntry false (List.replicate 300 0) bigString_lt

theorem smallString_lt : ([97] : Bytes).length < 2 ^ 32 := by decide

/-- An entry of three bytes. -/
def smallEntry : Entry := strEntry false [97] smallString_lt

theorem rawLen_bigEntry : bigEntry.rawLen = 303 := by
  rw [bigEntry, rawLen_strEntry, List.length_replicate]
  rfl

/-- Two small entries behind a big one that was small before: the field of the first one
grows. -/
theorem cascadeUpdate_restores_small : ∃ zl' fs', ziplistCascadeUpdate (fun _ => 0)
      (header 320 316 3 ++ (encodeEntries 0 ([] ++ [bigEntry]) ++
        (encodeEntries 3 [smallEntry, smallEntry] ++ [UInt8.ofNat ZIP_END])))
      (10 + size []) = some zl' ∧
    Represents zl' ([] ++ bigEntry :: fs') ∧ List.Forall₂ Grown [smallEntry, smallEntry] fs' ∧
    contents ([] ++ bigEntry :: fs') = contents ([] ++ bigEntry :: [smallEntry, smallEntry]) := by
  have hsize : 11 + size ([] ++ bigEntry :: [smallEntry, smallEntry]) = 320 := by
    rw [List.nil_append, size_cons, rawLen_bigEntry]
    rfl
  have htail : tailOffset ([] ++ bigEntry :: [smallEntry, smallEntry]) = 316 := by
    have hdrop : ([] ++ bigEntry :: [smallEntry, smallEntry]).dropLast = [bigEntry, smallEntry] := rfl
    rw [tailOffset, hdrop, size_cons, rawLen_bigEntry]
    rfl
  refine cascadeUpdate_restores (fun _ => 0)
    ⟨⟨3, by rw [hsize, htail], .inr ⟨by decide, rfl⟩⟩, ⟨fun _ => by decide, trivial⟩,
      ⟨fun _ => by decide, fun _ => by decide, trivial⟩, by decide, by rw [hsize]; decide⟩
    ⟨[smallEntry.widen, smallEntry], .cons (.inr rfl) (.cons (.inl rfl) .nil),
      ⟨fun hw => absurd hw (by decide), fun _ => by decide, trivial⟩, ?_⟩
  rw [List.nil_append, size_cons, rawLen_bigEntry]
  decide

theorem hugeString_lt : (List.replicate 4294966975 (0 : UInt8)).length < 2 ^ 32 := by
  rw [List.length_replicate]
  decide

/-- An entry of almost 2^32 bytes. -/
def hugeEntry : Entry := strEntry false (List.replicate 4294966975 0) hugeString_lt

theorem rawLen_hugeEntry : hugeEntry.rawLen = 4294966981 := by
  rw [hugeEntry, rawLen_strEntry, List.length_replicate]
  rfl

/-- A list of 2^32 - 1 bytes in which a field has to grow. -/
theorem cascadeUpdate_overflows : ∃ zl, Misrecorded zl [] bigEntry [hugeEntry] 3 ∧ ∀ mem,
    ¬ ∃ zl' fs', ziplistCascadeUpdate mem zl (10 + size []) = some zl' ∧
      Represents zl' ([] ++ bigEntry :: fs') ∧ List.Forall₂ Grown [hugeEntry] fs' ∧
      contents ([] ++ bigEntry :: fs') = contents ([] ++ bigEntry :: [hugeEntry]) := by
  refine ⟨_, ⟨⟨2, rfl, .inr ⟨by decide, rfl⟩⟩, ⟨fun _ => by decide, trivial⟩,
    ⟨fun _ => by decide, trivial⟩, by decide, ?_⟩, ?_⟩
  · rw [List.nil_append, size_cons, size_cons, size_nil, rawLen_bigEntry, rawLen_hugeEntry]
    decide
  · rintro mem ⟨zl', fs', -, hzl, hgrown, -⟩
    have hsmall := hzl.small
    have hfits := hzl.fits.2
    rw [List.nil_append, size_cons, rawLen_bigEntry] at hsmall
    cases hgrown with
    | cons he hrest =>
        cases hrest
        rcases he with rfl | rfl
        · -- the field is too small
          have hlt := hfits.1 rfl
          rw [rawLen_bigEntry] at hlt
          exact absurd hlt (by decide)
        · have hraw : hugeEntry.rawLen = 1 + hugeEntry.body.length := Entry.rawLen_narrow rfl
          rw [rawLen_hugeEntry] at hraw
          rw [size_cons, size_nil, Entry.rawLen_widen] at hsmall
          omega

end Ziplist

end RedisCore
