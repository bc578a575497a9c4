/-
# `RedisCore.Ziplist.Merge` — when merging two lists gives one

`ziplistMerge` puts the entries of both lists into the one with more of them and repairs the field
behind the seam.  The tail offset is computed from that of the second list: if that list is empty
and the first one is not, it points behind the last entry, and the result is no ziplist.
-/
import Mathlib.Data.List.Induction
import RedisCore.Ziplist.Runs

namespace RedisCore

namespace Ziplist

open CInt

variable {first second zl : Bytes} {es fs : List Entry}

/-- One argument holds both lists, one after the other, and the other one is `NULL`. -/
def Merges (mem : Nat → UInt8) (first second : Bytes) (l l' : List Bytes) : Prop :=
  ∃ zl, (ziplistMergeArgs mem first second = some (some zl, none) ∨
    ziplistMergeArgs mem first second = some (none, some zl)) ∧
      WellFormed zl ∧ decoded zl = some (l ++ l')

theorem merges_iff {mem : Nat → UInt8} {append : Bool} {l l' : List Bytes}
    (h : ziplistMerge mem first second = some (zl, append)) :
    Merges mem first second l l' ↔ WellFormed zl ∧ decoded zl = some (l ++ l') := by
  unfold Merges ziplistMergeArgs
  rw [h, some_bind]
  cases append with
  | true =>
      constructor
      · rintro ⟨zl', heq | heq, hgood⟩
        · obtain rfl := Option.some.inj (Prod.mk.inj (Option.some.inj heq)).1
          exact hgood
        · cases (Prod.mk.inj (Option.some.inj heq)).1
      · exact fun hgood => ⟨zl, .inl rfl, hgood⟩
  | false =>
      constructor
      · rintro ⟨zl', heq | heq, hgood⟩
        · cases (Prod.mk.inj (Option.some.inj heq)).1
        · obtain rfl := Option.some.inj (Prod.mk.inj (Option.some.inj heq)).2
          exact hgood
      · exact fun hgood => ⟨zl, .inr rfl, hgood⟩

/-- With nothing behind it, an entry ends the cascade. -/
theorem cascade_last (mem : Nat → UInt8) {total tail count : Nat} (h : Fits 0 es) (ht : total < 2 ^ 32)
    (hsmall : 11 + size es < 2 ^ 32) :
    ziplistCascadeUpdate mem (header total tail count ++ (encodeEntries 0 es ++ [UInt8.ofNat ZIP_END]))
      (tailOffset es) =
    some (header total tail count ++ (encodeEntries 0 es ++ [UInt8.ofNat ZIP_END])) := by
  unfold ziplistCascadeUpdate
  rw [zlBytes_header ht, some_bind]
  rcases List.eq_nil_or_concat' es with rfl | ⟨l, e, rfl⟩
  · unfold cascadeLoop
    rw [encodeEntries_nil, List.nil_append, byteAt_end (by rw [length_header]; rfl), some_bind, if_pos rfl]
    rfl
  · have hlast := lastLen_le_size l
    have hoffset : tailOffset (l ++ [e]) = 10 + size l := by
      unfold tailOffset
      rw [List.dropLast_concat]
      rfl
    rw [size_append, size_cons, size_nil] at hsmall
    have hbytes : header total tail count ++ (encodeEntries 0 (l ++ [e]) ++ [UInt8.ofNat ZIP_END]) =
        (header total tail count ++ encodeEntries 0 l) ++
          (prevField e.wide (lastLen 0 l) ++ (e.body ++ [UInt8.ofNat ZIP_END])) := by
      rw [encodeEntries_append, encodeEntries_single]
      simp only [List.append_assoc]
    have hlen : ((header total tail count ++ encodeEntries 0 l) ++ (prevField e.wide (lastLen 0 l) ++ e.body)).length =
        10 + size l + e.rawLen := by
      rw [List.length_append, List.length_append, List.length_append, length_header, length_encodeEntries,
        length_prevField]
      rfl
    have hend : byteAt ((header total tail count ++ encodeEntries 0 l) ++
        (prevField e.wide (lastLen 0 l) ++ (e.body ++ [UInt8.ofNat ZIP_END]))) (10 + size l + e.rawLen) =
        some ZIP_END := by
      rw [← List.append_assoc (prevField _ _), ← List.append_assoc]
      exact byteAt_end hlen.symm
    rw [hbytes, hoffset, cascadeLoop_entry (fits_append.mp h).2.1 (by omega) (by omega)
      (by rw [List.length_append, length_header, length_encodeEntries])]
    dsimp only
    rw [hend, some_bind, if_pos rfl]
    rfl

/-- Merged with an empty list: the tail offset is that of the end. -/
theorem ziplistMerge_empty (mem : Nat → UInt8) (h₁ : Represents first es) (h₂ : Represents second []) :
    ∃ count append, ziplistMerge mem first second = some (header (11 + size es) (10 + size es) count ++
      (encodeEntries 0 es ++ [UInt8.ofNat ZIP_END]), append) ∧ Counted count es.length := by
  obtain ⟨⟨count₁, rfl, hcount₁⟩, hfit₁, hsmall₁⟩ := h₁
  obtain ⟨⟨count₂, rfl, hcount₂⟩, -, hsmall₂⟩ := h₂
  have hdrop₁ := @size_dropLast_le es
  have hlt : count₁ < 2 ^ 16 ∧ count₂ < 2 ^ 16 := by
    unfold Counted UINT16_MAX at hcount₁ hcount₂
    omega
  obtain ⟨count, hcount⟩ : ∃ count, count = if count₁ + count₂ < UINT16_MAX then count₁ + count₂
    else UINT16_MAX := ⟨_, rfl⟩
  have hcounted : Counted count es.length := by
    rw [List.length_nil] at hcount₂
    rw [hcount]
    unfold Counted UINT16_MAX at *
    split <;> omega
  refine ⟨count, decide (count₁ ≥ count₂), ?_, hcounted⟩
  unfold ziplistMerge layout
  rw [zlBytes_header hsmall₁, some_bind, zlLength_header hlt.1, some_bind, zlBytes_header hsmall₂,
    some_bind, zlLength_header hlt.2, some_bind]
  dsimp only
  rw [zlTailOffset_header (by unfold tailOffset ZIPLIST_HEADER_SIZE; omega), some_bind,
    zlTailOffset_header (by decide), some_bind, joinBytes_spec mem _ rfl rfl, some_bind,
    setBytes_header hsmall₁ (by unfold ZIPLIST_HEADER_SIZE ZIPLIST_END_SIZE; rw [size_nil]; omega),
    some_bind, ← hcount,
    setLength_header (show count < 2 ^ 16 by rw [hcount]; unfold UINT16_MAX; split <;> omega) rfl,
    some_bind, setTailOffset_header (show 10 + size es < 2 ^ 32 by omega)
      (by rw [show tailOffset [] = 10 from rfl]; unfold ZIPLIST_HEADER_SIZE ZIPLIST_END_SIZE; omega),
    some_bind, encodeEntries_nil, List.nil_append, cascade_last mem hfit₁ hsmall₁ hsmall₁, some_bind]
  rfl

/-- Where the tail offset points to the end, no entry can be the last one. -/
theorem not_wellFormed_tail {count : Nat} {bytes : Bytes} (hne : es ≠ []) (hsmall : 11 + size es < 2 ^ 32) :
    ¬ WellFormed (header (11 + size es) (10 + size es) count ++ bytes) := by
  rintro ⟨es', h⟩
  have htotal := h.zlBytes
  have htail := h.zlTailOffset
  rw [zlBytes_header hsmall] at htotal
  rw [zlTailOffset_header (by omega)] at htail
  have hsize := Option.some.inj htotal
  have hoffset := Option.some.inj htail
  have hpos := List.length_pos_of_ne_nil hne
  have hlen := @length_le_size es
  rcases List.eq_nil_or_concat' es' with rfl | ⟨l, e, rfl⟩
  · rw [size_nil] at hsize
    omega
  · have hraw := e.rawLen_ge
    unfold tailOffset ZIPLIST_HEADER_SIZE at hoffset
    rw [List.dropLast_concat] at hoffset
    rw [size_append, size_cons, size_nil] at hsize
    omega

/-! ### A list whose tail offset is wrong, with another one behind it -/

/-- The length in the field of an entry can be read back. -/
theorem prevField_inj {wide wide' : Bool} {prev prev' : Nat} {cs cs' : Bytes}
    (h : wide = false → prev < 254) (hlt : prev < 2 ^ 32) (h' : wide' = false → prev' < 254)
    (hlt' : prev' < 2 ^ 32) (heq : prevField wide prev ++ cs = prevField wide' prev' ++ cs') :
    prev = prev' := by
  have hread := @zipDecodePrevlen_within [] cs 0 wide prev h hlt rfl
  have hread' := @zipDecodePrevlen_within [] cs' 0 wide' prev' h' hlt' rfl
  rw [heq, hread'] at hread
  exact (Prod.mk.inj (Option.some.inj hread)).2.symm

/-- Entries that start anew behind others are no entries of one list: read from the back, the first
of them has nothing before it. -/
theorem no_seam (hne : es ≠ []) : ∀ fs gs : List Entry, Fits 0 fs → Fits 0 gs → size gs < 2 ^ 32 →
    encodeEntries 0 gs = encodeEntries 0 es ++ encodeEntries 0 fs → lastLen 0 gs ≠ lastLen 0 fs := by
  intro fs
  have hpos := List.length_pos_of_ne_nil hne
  have hlen := @length_le_size es
  induction fs using List.reverseRecOn with
  | nil =>
      intro gs _ _ _ hbytes hlast
      rcases List.eq_nil_or_concat' gs with rfl | ⟨l, g, rfl⟩
      · have hsize := congrArg List.length hbytes
        rw [List.length_append, length_encodeEntries, length_encodeEntries] at hsize
        omega
      · have hraw := g.rawLen_ge
        rw [lastLen_append, lastLen_cons, lastLen_nil, lastLen_nil] at hlast
        omega
  | append_singleton fs f ih =>
      intro gs hfs hgs hsmall hbytes hlast
      have hrawf := f.rawLen_ge
      rw [lastLen_append, lastLen_cons, lastLen_nil] at hlast
      rcases List.eq_nil_or_concat' gs with rfl | ⟨l, g, rfl⟩
      · rw [lastLen_nil] at hlast
        omega
      · rw [lastLen_append, lastLen_cons, lastLen_nil] at hlast
        have hsize := congrArg List.length hbytes
        rw [List.length_append, length_encodeEntries, length_encodeEntries, length_encodeEntries,
          size_append, size_append, size_cons, size_cons, size_nil] at hsize
        rw [size_append, size_cons, size_nil] at hsmall
        have hl := lastLen_le_size l
        have hf := lastLen_le_size fs
        rw [encodeEntries_append, encodeEntries_append, ← List.append_assoc] at hbytes
        obtain ⟨hfront, hback⟩ := List.append_inj hbytes (by
          rw [List.length_append, length_encodeEntries, length_encodeEntries, length_encodeEntries]
          omega)
        obtain ⟨hfitl, hfitg⟩ := fits_append.mp hgs
        obtain ⟨hfitfs, hfitf⟩ := fits_append.mp hfs
        rw [encodeEntries_single, encodeEntries_single] at hback
        exact ih l hfitfs hfitl (by omega) hfront
          (prevField_inj hfitg.1 (by omega) hfitf.1 (by omega) hback)

/-- Such bytes are no ziplist. -/
theorem not_wellFormed_seam {count : Nat} (hes : es ≠ []) (hfs : fs ≠ []) (hfit : Fits 0 fs)
    (hsmall : 11 + (size es + size fs) < 2 ^ 32) : ¬ WellFormed
    (header (11 + (size es + size fs)) (10 + (size es + size fs.dropLast)) count ++
      (encodeEntries 0 es ++ (encodeEntries 0 fs ++ [UInt8.ofNat ZIP_END]))) := by
  rintro ⟨gs, h⟩
  have hdrop := @size_dropLast_le fs
  have htotal := h.zlBytes
  have htail := h.zlTailOffset
  rw [zlBytes_header hsmall] at htotal
  rw [zlTailOffset_header (by omega)] at htail
  have hsize := Option.some.inj htotal
  have hoffset := Option.some.inj htail
  obtain ⟨count', hlayout, -⟩ := h.layout
  unfold layout at hlayout
  have hbytes := (List.append_inj hlayout (by rw [length_header, length_header])).2
  rw [← List.append_assoc] at hbytes
  have hentries := List.append_cancel_right hbytes
  obtain ⟨fl, f, rfl⟩ := (List.eq_nil_or_concat' fs).resolve_left hfs
  have hraw := f.rawLen_ge
  unfold tailOffset ZIPLIST_HEADER_SIZE at hoffset
  rw [List.dropLast_concat] at hoffset
  rw [size_append, size_cons, size_nil] at hsize
  refine no_seam hes (fl ++ [f]) gs hfit h.fits (by have := h.small; omega) hentries.symm ?_
  rw [lastLen_append, lastLen_cons, lastLen_nil]
  rcases List.eq_nil_or_concat' gs with rfl | ⟨l, g, rfl⟩
  · rw [size_nil] at hsize
    omega
  · rw [List.dropLast_concat] at hoffset
    rw [size_append, size_cons, size_nil] at hsize
    rw [lastLen_append, lastLen_cons, lastLen_nil]
    omega

/-- Merged with a list whose tail offset is that of its end: the field of the first entry behind it
is left as it was. -/
theorem ziplistMerge_seam (mem : Nat → UInt8) {count : Nat} (hcount : count < 2 ^ 16)
    (h₂ : Represents second fs) (hfs : fs ≠ []) (hsmall : 11 + (size es + size fs) < 2 ^ 32) :
    ∃ count' append, count' < 2 ^ 16 ∧ ziplistMerge mem (header (11 + size es) (10 + size es) count ++
        (encodeEntries 0 es ++ [UInt8.ofNat ZIP_END])) second =
      some (header (11 + (size es + size fs)) (10 + (size es + size fs.dropLast)) count' ++
        (encodeEntries 0 es ++ (encodeEntries 0 fs ++ [UInt8.ofNat ZIP_END])), append) := by
  obtain ⟨⟨count₂, rfl, hcount₂⟩, hfit₂, hsmall₂⟩ := h₂
  have hdrop₂ := @size_dropLast_le fs
  have hlt₂ : count₂ < 2 ^ 16 := by
    unfold Counted UINT16_MAX at hcount₂
    omega
  obtain ⟨count', hcount'⟩ : ∃ count', count' = if count + count₂ < UINT16_MAX then count + count₂
    else UINT16_MAX := ⟨_, rfl⟩
  have hlt' : count' < 2 ^ 16 := by
    rw [hcount']
    unfold UINT16_MAX
    split <;> omega
  refine ⟨count', decide (count ≥ count₂), hlt', ?_⟩
  unfold ziplistMerge layout
  rw [zlBytes_header (by omega), some_bind, zlLength_header hcount, some_bind, zlBytes_header hsmall₂,
    some_bind, zlLength_header hlt₂, some_bind]
  dsimp only
  rw [zlTailOffset_header (by omega), some_bind,
    zlTailOffset_header (by unfold tailOffset ZIPLIST_HEADER_SIZE; omega), some_bind,
    joinBytes_spec mem _ rfl rfl, some_bind,
    setBytes_header hsmall (by unfold ZIPLIST_HEADER_SIZE ZIPLIST_END_SIZE; omega), some_bind, ← hcount',
    setLength_header hlt' rfl, some_bind,
    setTailOffset_header (show 10 + (size es + size fs.dropLast) < 2 ^ 32 by omega)
      (by unfold tailOffset ZIPLIST_HEADER_SIZE ZIPLIST_END_SIZE; omega), some_bind]
  -- the cascade starts at an entry whose length is as it was
  obtain ⟨f, fl, rfl⟩ := List.exists_cons_of_ne_nil hfs
  have hrest : settle f.rawLen fl = fl := settle_of_fits hfit₂.2
  have hcons := @size_cons f fl
  have hcascade := @cascadeUpdate_spec (11 + (size es + size (f :: fl)))
    (10 + (size es + size (f :: fl).dropLast)) count' fl mem (encodeEntries 0 es) f 0 f.rawLen
    (10 + (size es + size (f :: fl).dropLast)) (11 + (size es + size (f :: fl))) ⟨hfit₂.1, trivial⟩
    (by omega) hfit₂.2 (by omega) (by rw [hrest, length_encodeEntries]; omega)
    (by rw [length_encodeEntries]; omega) (by rw [length_encodeEntries]; omega)
    (by rw [hrest, length_encodeEntries]; omega) (by rw [hrest, length_encodeEntries]; omega)
    (10 + size es) (by rw [length_encodeEntries])
  rw [hrest, ← List.append_assoc (encodeEntries 0 [f]), ← encodeEntries_cons] at hcascade
  rw [hcascade, some_bind]
  rfl

/-- `ziplistLen` changes nothing but the number of entries. -/
theorem ziplistLen_header {total tail count n : Nat} {d zl' : Bytes} (hcount : count < 2 ^ 16)
    (h : ziplistLen (header total tail count ++ d) = some (n, zl')) :
    ∃ count' < 2 ^ 16, zl' = header total tail count' ++ d := by
  unfold ziplistLen at h
  rw [zlLength_header hcount, some_bind] at h
  split at h
  · obtain ⟨-, rfl⟩ := Prod.mk.inj (Option.some.inj h)
    exact ⟨count, hcount, rfl⟩
  · obtain ⟨len, -, h⟩ := Option.bind_eq_some_iff.mp h
    obtain ⟨zl, hset, h⟩ := Option.bind_eq_some_iff.mp h
    obtain ⟨-, rfl⟩ := Prod.mk.inj (Option.some.inj h)
    split at hset
    · next hlt =>
        unfold UINT16_MAX at hlt
        rw [setLength_header (show len < 2 ^ 16 by omega) rfl] at hset
        exact ⟨len, by omega, (Option.some.inj hset).symm⟩
    · obtain rfl := Option.some.inj hset
      exact ⟨count, hcount, rfl⟩

/-! ### When it concatenates -/

/-- `ziplistMerge` puts the second list behind the first one, unless only the second one is empty. -/
theorem ziplistMerge_concatenates (mem : Nat → UInt8) (h₁ : Represents first es) (h₂ : Represents second fs)
    (hsmall : 11 + size (es ++ settle (lastLen 0 es) fs) < 2 ^ 32) :
    Merges mem first second (contents es) (contents fs) ↔ ¬ (es ≠ [] ∧ fs = []) := by
  by_cases hfs : fs = []
  · subst hfs
    obtain ⟨count, append, hmerge, hcounted⟩ := ziplistMerge_empty mem h₁ h₂
    rw [merges_iff hmerge]
    by_cases hes : es = []
    · have hrep : Represents (header (11 + size es) (10 + size es) count ++
          (encodeEntries 0 es ++ [UInt8.ofNat ZIP_END])) es := by
        refine ⟨⟨count, ?_, hcounted⟩, h₁.fits, h₁.small⟩
        rw [hes]
        rfl
      refine iff_of_true ⟨⟨es, hrep⟩, ?_⟩ fun hbad => hbad.1 hes
      rw [contents_nil, List.append_nil]
      exact decoded_spec hrep
    · exact iff_of_false (fun hgood => not_wellFormed_tail hes h₁.small hgood.1)
        (not_not_intro ⟨hes, rfl⟩)
  · obtain ⟨zl, append, hmerge, hrep⟩ := ziplistMerge_spec mem h₁ h₂ hfs hsmall
    rw [merges_iff hmerge]
    refine iff_of_true ⟨⟨_, hrep⟩, ?_⟩ fun hbad => hfs hbad.2
    rw [decoded_spec hrep, contents_append, contents_settle]

/-- A list of one string. -/
def oneEntry : List Entry := [strEntry false [97] (by decide)]

theorem oneEntry_represents : Represents (layout 1 oneEntry) oneEntry :=
  ⟨⟨1, rfl, .inr ⟨by decide, rfl⟩⟩, ⟨fun _ => by decide, trivial⟩, by decide⟩

theorem ziplistMerge_concatenates_one :
    Merges (fun _ => 0) (layout 1 oneEntry) (layout 1 oneEntry) (contents oneEntry) (contents oneEntry) ↔
      ¬ (oneEntry ≠ [] ∧ oneEntry = []) :=
  ziplistMerge_concatenates _ oneEntry_represents oneEntry_represents (by decide)

/-- An empty list behind it. -/
theorem ziplistMerge_behind :
    ¬ Merges (fun _ => 0) (layout 1 oneEntry) ziplistNew (contents oneEntry) (contents []) := by
  obtain ⟨count, append, hmerge, -⟩ := ziplistMerge_empty (fun _ => 0) oneEntry_represents
    ziplistNew_represents
  rw [merges_iff hmerge]
  exact fun hgood => not_wellFormed_tail (List.cons_ne_nil _ _) oneEntry_represents.small hgood.1

end Ziplist

end RedisCore
