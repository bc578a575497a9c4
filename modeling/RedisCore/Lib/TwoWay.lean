/-
# `RedisCore.Lib.TwoWay` — doubly linked lists in memory

A cell has a value and two pointers.  `Seg m p xs q` says that the cells `xs`, each with its
value, stand behind one another in the memory `m`, that the first of them points back to `p`
and the last one on to `q`.  Segments are put together by `seg_append`; writing the outer
pointer of the first or the last cell is `setPrev_first` and `setNext_last`, and a write
anywhere else does not touch a segment (`Seg.congr`).

`forward` and `backward` read a segment as two chains, one the other's mirror image.
-/
import RedisCore.Lib.Chain
import Mathlib.Data.List.Nodup
import Mathlib.Data.List.Induction

namespace TwoWay

/-- A cell: where the one before it is, where the one behind it is, and its value. -/
structure Cell (ι V : Type) where
  prev : Option ι
  next : Option ι
  value : V
deriving DecidableEq, Repr

/-- What is in memory at each address. -/
abbrev Cells (ι V : Type) := ι → Option (Cell ι V)

variable {ι V : Type} {m m' : Cells ι V} {p p' q q' : Option ι} {xs ys : List (ι × V)} {x : ι × V}

/-- The addresses of some cells. -/
abbrev ids (xs : List (ι × V)) : List ι := xs.map Prod.fst

/-- The address of the first cell; `q` where there is none. -/
def first (xs : List (ι × V)) (q : Option ι) : Option ι :=
  match xs with
  | [] => q
  | x :: _ => some x.1

/-- The address of the last cell; `p` where there is none. -/
def last (p : Option ι) : List (ι × V) → Option ι
  | [] => p
  | x :: xs => last (some x.1) xs

/-- The cells `xs` between `p` and `q`. -/
def Seg (m : Cells ι V) (p : Option ι) : List (ι × V) → Option ι → Prop
  | [], _ => True
  | x :: xs, q => m x.1 = some ⟨p, first xs q, x.2⟩ ∧ Seg m (some x.1) xs q

@[simp] theorem first_nil (q : Option ι) : first ([] : List (ι × V)) q = q := rfl
@[simp] theorem first_cons (x : ι × V) (xs : List (ι × V)) (q : Option ι) :
    first (x :: xs) q = some x.1 := rfl
@[simp] theorem last_nil (p : Option ι) : last p ([] : List (ι × V)) = p := rfl
@[simp] theorem last_cons (p : Option ι) (x : ι × V) (xs : List (ι × V)) :
    last p (x :: xs) = last (some x.1) xs := rfl
@[simp] theorem seg_nil : Seg m p [] q := trivial

theorem first_append (xs ys : List (ι × V)) (q : Option ι) :
    first (xs ++ ys) q = first xs (first ys q) := by
  cases xs <;> rfl

theorem last_append (p : Option ι) (xs ys : List (ι × V)) :
    last p (xs ++ ys) = last (last p xs) ys := by
  induction xs generalizing p with
  | nil => rfl
  | cons x xs ih => exact ih (some x.1)

@[simp] theorem last_concat (p : Option ι) (xs : List (ι × V)) (x : ι × V) :
    last p (xs ++ [x]) = some x.1 := by
  rw [last_append]
  rfl

theorem last_some (a : ι) (xs : List (ι × V)) : ∃ b, last (some a) xs = some b := by
  induction xs generalizing a with
  | nil => exact ⟨a, rfl⟩
  | cons x xs ih => exact ih x.1

/-- The first cell is the same one, whatever is behind the last. -/
theorem first_of_last {a : ι} (h : last none xs = some a) (q q' : Option ι) :
    first xs q = first xs q' := by
  cases xs with
  | nil => exact nomatch h
  | cons => rfl

theorem last_of_first {a : ι} (h : first xs none = some a) (p p' : Option ι) :
    last p xs = last p' xs := by
  cases xs with
  | nil => exact nomatch h
  | cons => rfl

theorem eq_nil_of_last (h : last none xs = none) : xs = [] := by
  cases xs with
  | nil => rfl
  | cons x xs =>
      obtain ⟨b, hb⟩ := last_some x.1 xs
      rw [last_cons, hb] at h
      exact nomatch h

theorem last_mem {a : ι} (hne : xs ≠ []) (h : last p xs = some a) : a ∈ ids xs := by
  induction xs using List.reverseRecOn with
  | nil => exact absurd rfl hne
  | append_singleton xs x =>
      rw [last_concat, Option.some.injEq] at h
      simp [h]

theorem first_eq_head? (xs : List (ι × V)) : first xs none = (ids xs).head? := by
  cases xs <;> rfl

theorem last_eq_getLast? (xs : List (ι × V)) : last none xs = (ids xs).getLast? := by
  induction xs using List.reverseRecOn with
  | nil => rfl
  | append_singleton xs x ih => simp [ids]

/-! ## Segments -/

theorem seg_append : Seg m p (xs ++ ys) q ↔ Seg m p xs (first ys q) ∧ Seg m (last p xs) ys q := by
  induction xs generalizing p with
  | nil => simp
  | cons x xs ih =>
      show m x.1 = some ⟨p, first (xs ++ ys) q, x.2⟩ ∧ Seg m (some x.1) (xs ++ ys) q ↔ _
      rw [ih, first_append]
      exact and_assoc.symm

theorem seg_cons : Seg m p (x :: xs) q ↔ m x.1 = some ⟨p, first xs q, x.2⟩ ∧ Seg m (some x.1) xs q :=
  Iff.rfl

theorem seg_concat : Seg m p (xs ++ [x]) q ↔
    Seg m p xs (some x.1) ∧ m x.1 = some ⟨last p xs, q, x.2⟩ := by
  rw [seg_append]
  simp [seg_cons]

/-- A segment depends on its own cells only. -/
theorem Seg.congr (h : Seg m p xs q) (heq : ∀ a ∈ ids xs, m' a = m a) : Seg m' p xs q := by
  induction xs generalizing p with
  | nil => trivial
  | cons x xs ih =>
      obtain ⟨hx, hrest⟩ := h
      refine ⟨?_, ih hrest (fun a ha => heq a (List.mem_cons_of_mem _ ha))⟩
      rw [heq x.1 List.mem_cons_self, hx]

/-- Every cell of a segment is in memory, with its value. -/
theorem Seg.value (h : Seg m p xs q) (hx : x ∈ xs) : ∃ c, m x.1 = some c ∧ c.value = x.2 := by
  induction xs generalizing p with
  | nil => exact absurd hx List.not_mem_nil
  | cons y xs ih =>
      obtain ⟨hy, hrest⟩ := h
      rcases List.mem_cons.mp hx with rfl | hx
      · exact ⟨_, hy, rfl⟩
      · exact ih hrest hx

theorem Seg.isSome (h : Seg m p xs q) {a : ι} (ha : a ∈ ids xs) : ∃ c, m a = some c := by
  obtain ⟨x, hx, rfl⟩ := List.mem_map.mp ha
  obtain ⟨c, hc, -⟩ := h.value hx
  exact ⟨c, hc⟩

/-- From the first cell on, the pointers lead through the cells in their order. -/
theorem Seg.forward (h : Seg m p xs q) :
    Linked.Chain (fun a => (m a).map Cell.next) (first xs q) (ids xs) q := by
  induction xs generalizing p with
  | nil => rfl
  | cons x xs ih =>
      obtain ⟨hx, hrest⟩ := h
      exact ⟨rfl, first xs q, by simp [hx], ih hrest⟩

/-- From the last cell back, they lead through the cells in the opposite order. -/
theorem Seg.backward (h : Seg m p xs q) :
    Linked.Chain (fun a => (m a).map Cell.prev) (last p xs) (ids xs).reverse p := by
  induction xs using List.reverseRecOn generalizing q with
  | nil => rfl
  | append_singleton xs x ih =>
      obtain ⟨hxs, hx⟩ := seg_concat.mp h
      rw [last_concat, ids, List.map_append, List.map_singleton, List.reverse_append]
      exact ⟨rfl, last p xs, by simp [hx], ih hxs⟩

/-! ## Writing a pointer -/

theorem nodup_concat (h : (ids (xs ++ [x])).Nodup) : (ids xs).Nodup ∧ x.1 ∉ ids xs := by
  rw [ids, List.map_append] at h
  obtain ⟨hxs, -, hdisj⟩ := List.nodup_append.mp h
  exact ⟨hxs, fun hx => hdisj _ hx _ List.mem_cons_self rfl⟩

variable [DecidableEq ι]

/-- Write a cell's `next`; `none` where there is no cell. -/
def setNext (m : Cells ι V) (a : ι) (q : Option ι) : Option (Cells ι V) :=
  (m a).map fun c => Function.update m a (some { c with next := q })

/-- Write a cell's `prev`. -/
def setPrev (m : Cells ι V) (a : ι) (p : Option ι) : Option (Cells ι V) :=
  (m a).map fun c => Function.update m a (some { c with prev := p })

/-- Write the `next` of the cell a pointer leads to, if it leads to one. -/
def relinkNext (m : Cells ι V) (p : Option ι) (q : Option ι) : Option (Cells ι V) :=
  match p with
  | none => some m
  | some a => setNext m a q

/-- Write its `prev`. -/
def relinkPrev (m : Cells ι V) (q : Option ι) (p : Option ι) : Option (Cells ι V) :=
  match q with
  | none => some m
  | some a => setPrev m a p

theorem Seg.update (h : Seg m p xs q) {a : ι} (ha : a ∉ ids xs) (c : Option (Cell ι V)) :
    Seg (Function.update m a c) p xs q := by
  refine h.congr (fun b hb => Function.update_of_ne ?_ _ _)
  rintro rfl
  exact ha hb

/-- The pointer on behind the last cell is written. -/
theorem relinkNext_last (h : Seg m none xs q) (hnd : (ids xs).Nodup) (q' : Option ι) :
    ∃ m', relinkNext m (last none xs) q' = some m' ∧ Seg m' none xs q' ∧
      ∀ a, a ∉ ids xs → m' a = m a := by
  induction xs using List.reverseRecOn with
  | nil => exact ⟨m, rfl, trivial, fun _ _ => rfl⟩
  | append_singleton xs x =>
      obtain ⟨hxs, hx⟩ := seg_concat.mp h
      refine ⟨Function.update m x.1 (some ⟨last none xs, q', x.2⟩), ?_, ?_, ?_⟩
      · rw [last_concat, relinkNext, setNext, hx]
        rfl
      · exact seg_concat.mpr ⟨hxs.update (nodup_concat hnd).2 _, Function.update_self _ _ _⟩
      · intro a ha
        refine Function.update_of_ne ?_ _ _
        rintro rfl
        exact ha (by simp)

/-- The pointer back from the first cell is written. -/
theorem relinkPrev_first (h : Seg m p xs none) (hnd : (ids xs).Nodup) (p' : Option ι) :
    ∃ m', relinkPrev m (first xs none) p' = some m' ∧ Seg m' p' xs none ∧
      ∀ a, a ∉ ids xs → m' a = m a := by
  cases xs with
  | nil => exact ⟨m, rfl, trivial, fun _ _ => rfl⟩
  | cons x xs =>
      obtain ⟨hx, hxs⟩ := h
      refine ⟨Function.update m x.1 (some ⟨p', first xs none, x.2⟩), ?_, ?_, ?_⟩
      · rw [first_cons, relinkPrev, setPrev, hx]
        rfl
      · exact ⟨Function.update_self _ _ _, hxs.update (List.nodup_cons.mp hnd).1 _⟩
      · intro a ha
        refine Function.update_of_ne ?_ _ _
        rintro rfl
        exact ha (by simp)

/-- A new cell is put between two parts of a list, and the cells beside it are told. -/
theorem splice (h : Seg m none (xs ++ ys) none) (hnd : (ids (xs ++ ys)).Nodup)
    (hx : x.1 ∉ ids (xs ++ ys)) :
    ∃ m₁ m₂, relinkNext (Function.update m x.1 (some ⟨last none xs, first ys none, x.2⟩))
        (last none xs) (some x.1) = some m₁ ∧
      relinkPrev m₁ (first ys none) (some x.1) = some m₂ ∧ Seg m₂ none (xs ++ x :: ys) none ∧
      ∀ a, a ∉ ids (xs ++ x :: ys) → m₂ a = m a := by
  obtain ⟨hl, hr⟩ := seg_append.mp h
  rw [ids, List.map_append] at hnd hx
  obtain ⟨hndl, hndr, hdisj⟩ := List.nodup_append.mp hnd
  have hxl : x.1 ∉ ids xs := fun hm => hx (List.mem_append_left _ hm)
  have hxr : x.1 ∉ ids ys := fun hm => hx (List.mem_append_right _ hm)
  obtain ⟨m₁, h₁, hl₁, hk₁⟩ := relinkNext_last
    (hl.update hxl (some ⟨last none xs, first ys none, x.2⟩)) hndl (some x.1)
  have hr₁ : Seg m₁ (last none xs) ys none := by
    refine (hr.update hxr _).congr (fun a ha => hk₁ a ?_)
    exact fun hm => hdisj a hm a ha rfl
  obtain ⟨m₂, h₂, hr₂, hk₂⟩ := relinkPrev_first hr₁ hndr (some x.1)
  have hx₂ : m₂ x.1 = some ⟨last none xs, first ys none, x.2⟩ := by
    rw [hk₂ _ hxr, hk₁ _ hxl, Function.update_self]
  refine ⟨m₁, m₂, h₁, h₂, seg_append.mpr ⟨?_, hx₂, hr₂⟩, ?_⟩
  · exact hl₁.congr (fun a ha => hk₂ a (fun hm => hdisj a ha a hm rfl))
  · intro a ha
    rw [ids, List.map_append, List.map_cons, List.mem_append, List.mem_cons] at ha
    push Not at ha
    obtain ⟨hal, hax, har⟩ := ha
    rw [hk₂ a har, hk₁ a hal, Function.update_of_ne hax]

/-- A cell is taken out: the cells beside it are told of each other. -/
theorem unsplice (h : Seg m none (xs ++ x :: ys) none) (hnd : (ids (xs ++ ys)).Nodup)
    (hx : x.1 ∉ ids (xs ++ ys)) :
    ∃ m₁ m₂, relinkNext m (last none xs) (first ys none) = some m₁ ∧
      m₁ x.1 = some ⟨last none xs, first ys none, x.2⟩ ∧
      relinkPrev m₁ (first ys none) (last none xs) = some m₂ ∧
      m₂ x.1 = some ⟨last none xs, first ys none, x.2⟩ ∧
      Seg (Function.update m₂ x.1 none) none (xs ++ ys) none ∧
      ∀ a, a ∉ ids (xs ++ x :: ys) → m₂ a = m a := by
  obtain ⟨hl, hcell, hr⟩ := seg_append.mp h
  rw [ids, List.map_append] at hnd hx
  obtain ⟨hndl, hndr, hdisj⟩ := List.nodup_append.mp hnd
  have hxl : x.1 ∉ ids xs := fun hm => hx (List.mem_append_left _ hm)
  have hxr : x.1 ∉ ids ys := fun hm => hx (List.mem_append_right _ hm)
  obtain ⟨m₁, h₁, hl₁, hk₁⟩ := relinkNext_last hl hndl (first ys none)
  have hx₁ : m₁ x.1 = some ⟨last none xs, first ys none, x.2⟩ := by rw [hk₁ _ hxl, hcell]
  have hr₁ : Seg m₁ (some x.1) ys none :=
    hr.congr (fun a ha => hk₁ a (fun hm => hdisj a hm a ha rfl))
  obtain ⟨m₂, h₂, hr₂, hk₂⟩ := relinkPrev_first hr₁ hndr (last none xs)
  have hl₂ : Seg m₂ none xs (first ys none) :=
    hl₁.congr (fun a ha => hk₂ a (fun hm => hdisj a ha a hm rfl))
  have hx₂ : m₂ x.1 = some ⟨last none xs, first ys none, x.2⟩ := by rw [hk₂ _ hxr, hx₁]
  refine ⟨m₁, m₂, h₁, hx₁, h₂, hx₂, ?_, ?_⟩
  · refine Seg.update (seg_append.mpr ⟨hl₂, hr₂⟩) ?_ none
    rwa [ids, List.map_append]
  · intro a ha
    rw [ids, List.map_append, List.map_cons, List.mem_append, List.mem_cons] at ha
    push Not at ha
    obtain ⟨hal, -, har⟩ := ha
    rw [hk₂ a har, hk₁ a hal]

/-- The last cell is made the first one. -/
theorem turn {y : ι × V} (h : Seg m none ((y :: ys) ++ [x]) none)
    (hnd : (ids ((y :: ys) ++ [x])).Nodup) :
    ∃ m₁ m₂ m₃ m₄, relinkNext m (last none (y :: ys)) none = some m₁ ∧
      setPrev m₁ y.1 (some x.1) = some m₂ ∧ setPrev m₂ x.1 none = some m₃ ∧
      setNext m₃ x.1 (some y.1) = some m₄ ∧ Seg m₄ none (x :: y :: ys) none ∧
      ∀ a, a ∉ ids (x :: y :: ys) → m₄ a = m a := by
  obtain ⟨hseg, hcell⟩ := seg_concat.mp h
  obtain ⟨hnd', hx⟩ := nodup_concat hnd
  obtain ⟨m₁, h₁, hseg₁, hk₁⟩ := relinkNext_last hseg hnd' none
  obtain ⟨m₂, h₂, hseg₂, hk₂⟩ := relinkPrev_first hseg₁ hnd' (some x.1)
  have hx₂ : m₂ x.1 = some ⟨last none (y :: ys), none, x.2⟩ := by rw [hk₂ _ hx, hk₁ _ hx, hcell]
  have h₃ : setPrev m₂ x.1 none = some (Function.update m₂ x.1 (some ⟨none, none, x.2⟩)) := by
    rw [setPrev, hx₂]
    rfl
  refine ⟨m₁, m₂, _, _, h₁, h₂, h₃, by rw [setNext, Function.update_self]; rfl,
    ⟨Function.update_self _ _ _, ?_⟩, ?_⟩
  · exact (hseg₂.update hx _).update hx _
  · intro a ha
    obtain ⟨hax, ha⟩ := not_or.mp (fun hm => ha (List.mem_cons.mpr hm))
    rw [Function.update_of_ne hax, Function.update_of_ne hax, hk₂ a ha, hk₁ a ha]

end TwoWay
