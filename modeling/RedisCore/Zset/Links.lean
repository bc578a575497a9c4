/-
# `RedisCore.Zset.Links` — what the loops of the skip list do to its levels

The levels of a skip list do not see each other: a loop over the levels changes one
`lane` at a time, and what it leaves on each lane is known from that lane alone.
`Linked` then says what all lanes have to look like for a list of nodes, and the search
finds on each lane the last node before the place it looks for.
-/
import RedisCore.Zset.Skiplist

namespace RedisCore

namespace Skiplist

open Lanes

variable {σ : Type} {z z' z₀ : Zskiplist σ} {x y w : NodeId} {i j : Nat} {l l' : ZskiplistLevel}

/-! ## Lanes -/

/-- A level of all nodes. -/
def Zskiplist.lane (z : Zskiplist σ) (i : Nat) (w : NodeId) : Option ZskiplistLevel := z.lev w i

/-- The number of levels of a node. -/
def Zskiplist.height (z : Zskiplist σ) (w : NodeId) : Nat :=
  match z.node w with
  | none => 0
  | some n => n.level.length

/-- The element of a node. -/
def Zskiplist.elem (z : Zskiplist σ) (w : NodeId) : Option (Option StringObj × σ) :=
  (z.node w).map (fun n => (n.obj, n.score))

/-- `w->backward`. -/
def Zskiplist.back (z : Zskiplist σ) (w : NodeId) : Option (Option NodeId) :=
  (z.node w).map (fun n => n.backward)

/-- A step that changes levels of nodes and nothing else. -/
structure Frame (z z' : Zskiplist σ) : Prop where
  header : z'.header = z.header
  tail : z'.tail = z.tail
  length : z'.length = z.length
  level : z'.level = z.level
  height : z'.height = z.height
  elem : z'.elem = z.elem
  back : z'.back = z.back

theorem Frame.refl (z : Zskiplist σ) : Frame z z := ⟨rfl, rfl, rfl, rfl, rfl, rfl, rfl⟩

theorem Frame.trans {z₁ z₂ z₃ : Zskiplist σ} (h₁ : Frame z₁ z₂) (h₂ : Frame z₂ z₃) :
    Frame z₁ z₃ where
  header := h₂.header.trans h₁.header
  tail := h₂.tail.trans h₁.tail
  length := h₂.length.trans h₁.length
  level := h₂.level.trans h₁.level
  height := h₂.height.trans h₁.height
  elem := h₂.elem.trans h₁.elem
  back := h₂.back.trans h₁.back

theorem lev_isSome : (∃ l, z.lev w i = some l) ↔ i < z.height w := by
  unfold Zskiplist.lev Zskiplist.height
  cases z.node w with
  | none => simp
  | some n =>
      simp only [Option.bind_some]
      constructor
      · rintro ⟨l, hl⟩
        exact (List.getElem?_eq_some_iff.mp hl).1
      · intro hi
        exact ⟨_, List.getElem?_eq_getElem hi⟩

theorem lev_eq_none (h : z.height w ≤ i) : z.lev w i = none := by
  by_contra hne
  have := lev_isSome.mp (Option.ne_none_iff_exists'.mp hne)
  omega

/-- Writing one level of one node. -/
theorem setLev_spec (h : i < z.height x) (l : ZskiplistLevel) :
    ∃ z', z.setLev x i l = some z' ∧ Frame z z' ∧
      z'.lane i = Function.update (z.lane i) x (some l) ∧ ∀ j, j ≠ i → z'.lane j = z.lane j := by
  unfold Zskiplist.height at h
  cases hn : z.node x with
  | none => simp [hn] at h
  | some n =>
      rw [hn] at h
      simp only at h
      have hlane : ∀ j w, (z.setNode x (some { n with level := n.level.set i l })).lane j w =
          if w = x then (n.level.set i l)[j]? else z.lane j w := by
        intro j w
        unfold Zskiplist.lane Zskiplist.lev Zskiplist.setNode
        simp only [Function.update_apply]
        split
        · rfl
        · rfl
      have heq : z.setLev x i l = some (z.setNode x (some { n with level := n.level.set i l })) := by
        rw [Zskiplist.setLev, hn]
        exact if_pos h
      refine ⟨_, heq, ⟨rfl, rfl, rfl, rfl, ?_, ?_, ?_⟩, ?_, ?_⟩
      · funext w
        unfold Zskiplist.height Zskiplist.setNode
        simp only [Function.update_apply]
        by_cases hw : w = x
        · rw [if_pos hw, hw, hn]
          exact List.length_set
        · rw [if_neg hw]
      · funext w
        unfold Zskiplist.elem Zskiplist.setNode
        simp only [Function.update_apply]
        by_cases hw : w = x
        · rw [if_pos hw, hw, hn]
          rfl
        · rw [if_neg hw]
      · funext w
        unfold Zskiplist.back Zskiplist.setNode
        simp only [Function.update_apply]
        by_cases hw : w = x
        · rw [if_pos hw, hw, hn]
          rfl
        · rw [if_neg hw]
      · funext w
        rw [hlane, Function.update_apply]
        split
        · rw [List.getElem?_set_self h]
        · rfl
      · intro j hj
        funext w
        rw [hlane]
        split
        · next hw =>
            rw [List.getElem?_set_ne (Ne.symm hj), hw, Zskiplist.lane, Zskiplist.lev, hn]
            rfl
        · rfl

/-- A loop over the levels, from what its body does on one lane: `F` is the lane it
leaves, where `P` holds of the lane it finds. -/
theorem forLevels_spec {α : Type} {step : Nat → α → Zskiplist σ → Option (Zskiplist σ)}
    {P : Nat → α → (NodeId → Option ZskiplistLevel) → Prop}
    {F : Nat → α → (NodeId → Option ZskiplistLevel) → NodeId → Option ZskiplistLevel}
    (hstep : ∀ i a z, Frame z₀ z → P i a (z.lane i) → ∃ z', step i a z = some z' ∧ Frame z z' ∧
      z'.lane i = F i a (z.lane i) ∧ ∀ j, j ≠ i → z'.lane j = z.lane j) :
    ∀ (as : List α) (i : Nat) (z : Zskiplist σ), Frame z₀ z →
      (∀ k a, as[k]? = some a → P (i + k) a (z.lane (i + k))) →
      ∃ z', forLevels step i as z = some z' ∧ Frame z z' ∧
        (∀ j, j < i ∨ i + as.length ≤ j → z'.lane j = z.lane j) ∧
        ∀ k a, as[k]? = some a → z'.lane (i + k) = F (i + k) a (z.lane (i + k)) := by
  intro as
  induction as with
  | nil =>
      intro i z _ _
      exact ⟨z, rfl, Frame.refl z, fun _ _ => rfl, fun k a h => absurd h (by simp)⟩
  | cons a as ih =>
      intro i z hf hP
      obtain ⟨z₁, heq, hframe, hlane, hothers⟩ := hstep i a z hf (hP 0 a rfl)
      have hP₁ : ∀ k b, as[k]? = some b → P (i + 1 + k) b (z₁.lane (i + 1 + k)) := by
        intro k b hk
        rw [hothers (i + 1 + k) (by omega), show i + 1 + k = i + (k + 1) by omega]
        exact hP (k + 1) b hk
      obtain ⟨z', hrest, hframe', hout, hin⟩ := ih (i + 1) z₁ (hf.trans hframe) hP₁
      refine ⟨z', by rw [forLevels, heq]; exact hrest, hframe.trans hframe', ?_, ?_⟩
      · intro j hj
        rw [List.length_cons] at hj
        rw [hout j (by omega), hothers j (by omega)]
      · intro k b hk
        cases k with
        | zero =>
            cases hk
            rw [Nat.add_zero, hout i (by omega), hlane]
        | succ k =>
            rw [show i + (k + 1) = i + 1 + k by omega, hin k b hk, hothers (i + 1 + k) (by omega)]

/-! ## The shape -/

/-- The nodes that have a level. -/
def Zskiplist.tall (z : Zskiplist σ) (i : Nat) (w : NodeId) : Bool := i < z.height w

/-- The link a node has on a level, given the nodes behind it. -/
def linkTo (z : Zskiplist σ) (i : Nat) (behind : List NodeId) : ZskiplistLevel :=
  ⟨(ahead (z.tall i) behind).1, UInt32.ofNat (ahead (z.tall i) behind).2⟩

/-- The list has these nodes, and every link in use is the one it should be. -/
structure Linked (z : Zskiplist σ) (ids : List NodeId) : Prop where
  nodup : (z.header :: ids).Nodup
  headerHeight : z.height z.header = ZSKIPLIST_MAXLEVEL
  height : ∀ y ∈ ids, 0 < z.height y ∧ z.height y ≤ z.level
  levelPos : 0 < z.level
  levelLe : z.level ≤ ZSKIPLIST_MAXLEVEL
  links : ∀ ahd y behind, z.header :: ids = ahd ++ y :: behind → ∀ i, i < z.level →
    i < z.height y → z.lane i y = some (linkTo z i behind)
  unused : ∀ i, z.level ≤ i → i < ZSKIPLIST_MAXLEVEL →
    ∃ l, z.lane i z.header = some l ∧ l.forward = none
  backward : ∀ ahd y behind, ids = ahd ++ y :: behind → z.back y = some ahd.getLast?
  tail : z.tail = ids.getLast?
  length : z.length = ids.length

/-- `y` is the last of the nodes that has the level, and `rank` of them are before it. -/
def IsLast (z : Zskiplist σ) (i : Nat) (nodes : List NodeId) (y : NodeId) (rank : UInt32) : Prop :=
  ∃ ahd low, nodes = ahd ++ y :: low ∧ i < z.height y ∧ (∀ w ∈ low, z.tall i w = false) ∧
    rank = UInt32.ofNat ahd.length

/-- A cell of two lists in a row is in the one or in the other. -/
theorem append_eq_append_cons {α : Type} {as bs as' bs' : List α} {b : α}
    (h : as ++ bs = as' ++ b :: bs') :
    (∃ mid, as = as' ++ b :: mid ∧ bs' = mid ++ bs) ∨
      ∃ mid, as' = as ++ mid ∧ bs = mid ++ b :: bs' := by
  rcases List.append_eq_append_iff.mp h with ⟨mid, h₁, h₂⟩ | ⟨mid, h₁, h₂⟩
  · exact Or.inr ⟨mid, h₁, h₂⟩
  · cases mid with
    | nil => exact Or.inr ⟨[], by simpa using h₁.symm, by simpa using h₂.symm⟩
    | cons c mid =>
        obtain ⟨rfl, h₃⟩ := List.cons.inj h₂
        exact Or.inl ⟨mid, h₁, h₃⟩

/-- Two ways to take a list apart at a cell. -/
theorem append_cons_cases {α : Type} {as bs as' bs' : List α} {a b : α}
    (h : as ++ a :: bs = as' ++ b :: bs') :
    (∃ mid, as = as' ++ b :: mid ∧ bs' = mid ++ a :: bs) ∨
      (as = as' ∧ a = b ∧ bs = bs') ∨ ∃ mid, as' = as ++ a :: mid ∧ bs = mid ++ b :: bs' := by
  rcases append_eq_append_cons h with ⟨mid, h₁, h₂⟩ | ⟨mid, h₁, h₂⟩
  · exact Or.inl ⟨mid, h₁, h₂⟩
  · cases mid with
    | nil =>
        obtain ⟨rfl, rfl⟩ := List.cons.inj h₂
        exact Or.inr (Or.inl ⟨by simpa using h₁.symm, rfl, rfl⟩)
    | cons c mid =>
        obtain ⟨rfl, h₃⟩ := List.cons.inj h₂
        exact Or.inr (Or.inr ⟨mid, h₁, h₃⟩)

/-- Another node of the list that has the level is the last one, or is before it. -/
theorem IsLast.cases {nodes ahd low : List NodeId} {rank : UInt32} (h : IsLast z i nodes y rank)
    (hnd : nodes.Nodup) (hw : nodes = ahd ++ w :: low) (htall : i < z.height w) :
    (w = y ∧ (∀ v ∈ low, z.tall i v = false) ∧ rank = UInt32.ofNat ahd.length) ∨
      (w ≠ y ∧ ∃ v ∈ low, z.tall i v = true) := by
  obtain ⟨ahd', low', hy, hty, hlow', hrank⟩ := h
  rcases append_cons_cases (hw.symm.trans hy) with ⟨mid, h₁, h₂⟩ | ⟨h₁, h₂, h₃⟩ | ⟨mid, h₁, h₂⟩
  · have hmem : w ∈ low' := by rw [h₂]; simp
    exact absurd (hlow' w hmem) (by simp [Zskiplist.tall, htall])
  · subst h₁ h₂ h₃
    exact Or.inl ⟨rfl, hlow', hrank⟩
  · refine Or.inr ⟨?_, y, by rw [h₂]; simp, by simp [Zskiplist.tall, hty]⟩
    rintro rfl
    rw [hw, h₂] at hnd
    exact absurd hnd (by simp [List.nodup_append])

/-! ## The search -/

variable [LinearOrder σ] {score : σ} {obj : StringObj} {ids pre post : List NodeId}

/-- The nodes of the list stand before or behind the place of an element. -/
structure Place (z : Zskiplist σ) (score : σ) (obj : StringObj) (pre post : List NodeId) : Prop where
  before : ∀ y ∈ pre, ∃ n, z.node y = some n ∧ n.before score obj = true
  behind : ∀ y ∈ post, ∃ n, z.node y = some n ∧ n.before score obj = false

omit [LinearOrder σ] in
/-- A link from before a place either leads behind the place, where no node of the level is
left before it, or to the next node of the level before it. -/
theorem Linked.next (h : Linked z (pre ++ post)) (hi : i < z.level) {ahd mid : List NodeId}
    (hx : z.header :: pre = ahd ++ x :: mid) (hh : i < z.height x) :
    (∃ l, z.lev x i = some l ∧ (∀ v ∈ mid, z.tall i v = false) ∧
      ∀ y, l.forward = some y → y ∈ post) ∨
    ∃ low y rest, z.lev x i = some ⟨some y, UInt32.ofNat (low.length + 1)⟩ ∧
      mid = low ++ y :: rest ∧ i < z.height y ∧ y ∈ pre := by
  have hlink : z.lev x i = some (linkTo z i (mid ++ post)) := by
    refine h.links ahd x (mid ++ post) ?_ i hi hh
    rw [← List.cons_append, hx, List.append_assoc]
    rfl
  rcases @exists_first_tall _ (z.tall i) mid with hlow | ⟨low, y, rest, rfl, hty, hlow⟩
  · refine Or.inl ⟨_, hlink, hlow, ?_⟩
    intro y hy
    rw [linkTo, ahead_append_low hlow] at hy
    obtain ⟨low, rest, hpost, _, _, _⟩ := ahead_some hy
    rw [hpost]
    simp
  · refine Or.inr ⟨low, y, rest, ?_, rfl, by simpa [Zskiplist.tall] using hty, ?_⟩
    · rw [hlink, linkTo, List.append_assoc, ahead_append_low hlow, List.cons_append,
        ahead_cons_tall hty]
    · -- it is not the header, which stands before `x` or is `x`
      cases ahd with
      | nil =>
          obtain ⟨_, rfl⟩ := List.cons.inj hx
          simp
      | cons a ahd =>
          obtain ⟨_, rfl⟩ := List.cons.inj hx
          simp

/-- **The inner loop** stops at the last node of the level before the place. -/
theorem advance_spec (h : Linked z (pre ++ post)) (hp : Place z score obj pre post)
    (hi : i < z.level) :
    ∀ (fuel : Nat) (ahd mid : List NodeId) (x : NodeId), mid.length < fuel →
      z.header :: pre = ahd ++ x :: mid → i < z.height x →
      ∃ y rank, advance z score obj i fuel x (UInt32.ofNat ahd.length) = some (y, rank) ∧
        IsLast z i (z.header :: pre) y rank := by
  intro fuel
  induction fuel with
  | zero => intro ahd mid x hf; omega
  | succ fuel ih =>
      intro ahd mid x hf hx hh
      rcases h.next hi hx hh with ⟨l, hlink, hlow, hpost⟩ | ⟨low, y, rest, hlink, rfl, hy, hmem⟩
      · -- no node of the level is left before the place
        refine ⟨x, _, ?_, ahd, mid, hx, hh, hlow, rfl⟩
        rw [advance, hlink]
        cases hnext : l.forward with
        | none => simp only [hnext]
        | some y =>
            obtain ⟨n, hn, hb⟩ := hp.behind y (hpost y hnext)
            simp [hnext, hn, hb]
      · obtain ⟨n, hn, hb⟩ := hp.before y hmem
        have hrank : UInt32.ofNat ahd.length + UInt32.ofNat (low.length + 1) =
            UInt32.ofNat (ahd ++ x :: low).length := by
          rw [← UInt32.ofNat_add]
          congr 1
          simp
        rw [advance, hlink]
        simp only [hn, hb, if_true]
        rw [hrank]
        refine ih (ahd ++ x :: low) rest y ?_ ?_ hy
        · simp only [List.length_append, List.length_cons] at hf
          omega
        · rw [hx, List.append_assoc]
          rfl

/-- **The search** finds on every level the last node before the place. -/
theorem search_spec (h : Linked z (pre ++ post)) (hp : Place z score obj pre post) :
    ∀ (i : Nat) (x : NodeId) (rank : UInt32), i ≤ z.level → IsLast z i (z.header :: pre) x rank ∨
      (x = z.header ∧ rank = 0) →
      ∃ update, search z score obj i x rank = some update ∧ update.length = i ∧
        ∀ j p, update[j]? = some p → IsLast z j (z.header :: pre) p.1 p.2 := by
  intro i
  induction i with
  | zero =>
      intro x rank _ _
      exact ⟨[], rfl, rfl, fun j p hj => absurd hj (by simp)⟩
  | succ i ih =>
      intro x rank hi hx
      have hstart : ∃ ahd mid, z.header :: pre = ahd ++ x :: mid ∧ i < z.height x ∧
          rank = UInt32.ofNat ahd.length := by
        rcases hx with ⟨ahd, low, hnodes, hh, _, hrank⟩ | ⟨rfl, rfl⟩
        · exact ⟨ahd, low, hnodes, by omega, hrank⟩
        · refine ⟨[], pre, rfl, ?_, rfl⟩
          have := h.levelLe
          rw [h.headerHeight]
          omega
      obtain ⟨ahd, mid, hnodes, hh, hrank⟩ := hstart
      have hlen : mid.length < z.length + 1 := by
        have := congrArg List.length hnodes
        have hl := h.length
        simp only [List.length_append, List.length_cons] at this hl
        omega
      obtain ⟨y, rank', hadv, hlast⟩ := advance_spec h hp (by omega) (z.length + 1) ahd mid x hlen
        hnodes hh
      have hweak : IsLast z i (z.header :: pre) y rank' := hlast
      obtain ⟨update, hsearch, hulen, hall⟩ := ih y rank' (by omega) (Or.inl hweak)
      refine ⟨update ++ [(y, rank')], ?_, by simp [hulen], ?_⟩
      · rw [search, hrank, hadv]
        simp only [hsearch, Option.map_some]
      · intro j p hj
        by_cases hji : j < update.length
        · rw [List.getElem?_append_left hji] at hj
          exact hall j p hj
        · rw [List.getElem?_append_right (by omega)] at hj
          have hj0 : j - update.length = 0 := by
            have := (List.getElem?_eq_some_iff.mp hj).1
            simp at this
            omega
          rw [hj0] at hj
          cases hj
          rw [show j = i by omega]
          exact hlast

end Skiplist

end RedisCore
