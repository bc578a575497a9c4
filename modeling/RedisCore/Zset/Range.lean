/-
# `RedisCore.Zset.Range` — the ends of a score range in the skip list (t_zset.c)

A range is rejected when it is empty by itself, when the last element is below its minimum
or when the first is above its maximum.  Otherwise the search walks down the levels, while
a test of the score says go on, to the last element that passes the test.  Both tests are
monotone in the score, so this is the last of an initial segment of the list: what is below
the minimum for `zslFirstInRange`, what is not above the maximum for `zslLastInRange`.

A bound of a range may be NaN, with which every comparison is false; it is `none` here.
-/
import RedisCore.Zset.Runs
import Mathlib.Order.Interval.Set.Basic

namespace RedisCore

namespace Skiplist

variable {σ : Type} [LinearOrder σ]

/-- `zrangespec`. -/
structure Zrangespec (σ : Type) where
  min : Option σ
  max : Option σ
  minex : Bool
  maxex : Bool

/-- `zslValueGteMin`. -/
def zslValueGteMin (value : σ) (spec : Zrangespec σ) : Bool :=
  spec.min.any (fun min => if spec.minex then decide (value > min) else decide (value ≥ min))

/-- `zslValueLteMax`. -/
def zslValueLteMax (value : σ) (spec : Zrangespec σ) : Bool :=
  spec.max.any (fun max => if spec.maxex then decide (value < max) else decide (value ≤ max))

/-- The test for ranges that will always be empty. -/
def Zrangespec.alwaysEmpty (range : Zrangespec σ) : Bool :=
  range.min.any (fun min => range.max.any (fun max =>
    decide (min > max) || (decide (min = max) && (range.minex || range.maxex))))

/-- `zslIsInRange`. -/
def zslIsInRange (z : Zskiplist σ) (range : Zrangespec σ) : Option Bool :=
  if range.alwaysEmpty then some false
  else
    match z.tail with
    | none => some false
    | some x =>
        match z.node x with
        | none => none
        | some n =>
            if !zslValueGteMin n.score range then some false
            else
              match z.lev z.header 0 with
              | none => none
              | some l =>
                  match l.forward with
                  | none => some false
                  | some x =>
                      match z.node x with
                      | none => none
                      | some n => if !zslValueLteMax n.score range then some false else some true

/-- The inner loop of a range search: go forward on level `i` while the test holds. -/
def goForward (z : Zskiplist σ) (go : σ → Bool) (i : Nat) : Nat → NodeId → Option NodeId
  | 0, _ => none
  | fuel + 1, x =>
      match z.lev x i with
      | none => none
      | some l =>
          match l.forward with
          | none => some x
          | some y =>
              match z.node y with
              | none => none
              | some n => if go n.score then goForward z go i fuel y else some x

/-- The outer loop, from the level below the given one down. -/
def goDown (z : Zskiplist σ) (go : σ → Bool) : Nat → NodeId → Option NodeId
  | 0, x => some x
  | i + 1, x => (goForward z go i (z.length + 1) x).bind (goDown z go i)

/-- `zslFirstInRange`; the node behind the walk is read without a check for NULL. -/
def zslFirstInRange (z : Zskiplist σ) (range : Zrangespec σ) : Option (Option NodeId) :=
  (zslIsInRange z range).bind (fun b =>
    if !b then some none
    else
      (goDown z (fun score => !zslValueGteMin score range) z.level z.header).bind (fun x =>
        (z.lev x 0).bind (fun l =>
          l.forward.bind (fun x =>
            (z.node x).map (fun n => if !zslValueLteMax n.score range then none else some x)))))

/-- `zslLastInRange`. -/
def zslLastInRange (z : Zskiplist σ) (range : Zrangespec σ) : Option (Option NodeId) :=
  (zslIsInRange z range).bind (fun b =>
    if !b then some none
    else
      (goDown z (fun score => zslValueLteMax score range) z.level z.header).bind (fun x =>
        (z.node x).map (fun n => if !zslValueGteMin n.score range then none else some x)))

/-! ## What a range means -/

/-- The scores of a range. -/
def Zrangespec.interval (range : Zrangespec σ) : Set σ :=
  match range.min, range.max with
  | some min, some max =>
      match range.minex, range.maxex with
      | false, false => Set.Icc min max
      | false, true => Set.Ico min max
      | true, false => Set.Ioc min max
      | true, true => Set.Ioo min max
  | _, _ => ∅

theorem mem_interval {range : Zrangespec σ} {v : σ} : v ∈ range.interval ↔
    zslValueGteMin v range = true ∧ zslValueLteMax v range = true := by
  obtain ⟨min, max, minex, maxex⟩ := range
  cases min with
  | none => simp [Zrangespec.interval, zslValueGteMin]
  | some min =>
      cases max with
      | none => simp [Zrangespec.interval, zslValueLteMax]
      | some max =>
          cases minex <;> cases maxex <;>
            simp [Zrangespec.interval, zslValueGteMin, zslValueLteMax]

theorem alwaysEmpty_interval {range : Zrangespec σ} (h : range.alwaysEmpty = true) :
    range.interval = ∅ := by
  obtain ⟨min, max, minex, maxex⟩ := range
  cases min with
  | none => rfl
  | some min =>
      cases max with
      | none => rfl
      | some max =>
          simp only [Zrangespec.alwaysEmpty, Option.any_some, Bool.or_eq_true, Bool.and_eq_true,
            decide_eq_true_eq] at h
          rcases h with h | ⟨rfl, h⟩
          · cases minex <;> cases maxex <;>
              simp [Zrangespec.interval, not_le_of_gt h, not_lt_of_gt h]
          · cases minex <;> cases maxex <;> simp_all [Zrangespec.interval]

theorem zslValueGteMin_mono {range : Zrangespec σ} {v w : σ} (hle : v ≤ w)
    (h : zslValueGteMin v range = true) : zslValueGteMin w range = true := by
  obtain ⟨min, max, minex, maxex⟩ := range
  cases min with
  | none => exact h
  | some min =>
      cases minex with
      | false =>
          have hv : min ≤ v := by simpa [zslValueGteMin] using h
          simpa [zslValueGteMin] using le_trans hv hle
      | true =>
          have hv : min < v := by simpa [zslValueGteMin] using h
          simpa [zslValueGteMin] using lt_of_lt_of_le hv hle

theorem zslValueLteMax_anti {range : Zrangespec σ} {v w : σ} (hle : v ≤ w)
    (h : zslValueLteMax w range = true) : zslValueLteMax v range = true := by
  obtain ⟨min, max, minex, maxex⟩ := range
  cases max with
  | none => exact h
  | some max =>
      cases maxex with
      | false =>
          have hw : w ≤ max := by simpa [zslValueLteMax] using h
          simpa [zslValueLteMax] using le_trans hle hw
      | true =>
          have hw : w < max := by simpa [zslValueLteMax] using h
          simpa [zslValueLteMax] using lt_of_le_of_lt hle hw

/-! ## The walk -/

variable {z : Zskiplist σ} {x y : NodeId} {ids pre post : List NodeId} {go : σ → Bool}

/-- A test of the score holds of a node. -/
def Zskiplist.passes (z : Zskiplist σ) (test : σ → Bool) (y : NodeId) : Bool :=
  (z.node y).any (fun n => test n.score)

/-- The test holds of the nodes before a place and of none behind it. -/
structure Cut (z : Zskiplist σ) (go : σ → Bool) (pre post : List NodeId) : Prop where
  before : ∀ y ∈ pre, ∃ n, z.node y = some n ∧ go n.score = true
  behind : ∀ y ∈ post, ∃ n, z.node y = some n ∧ go n.score = false

omit [LinearOrder σ] in
/-- **The inner loop** stops at the last node of the level before the place. -/
theorem goForward_spec (h : Linked z (pre ++ post)) (hc : Cut z go pre post) {i : Nat}
    (hi : i < z.level) :
    ∀ (fuel : Nat) (ahd mid : List NodeId) (x : NodeId), mid.length < fuel →
      z.header :: pre = ahd ++ x :: mid → i < z.height x →
      ∃ ahd y low, goForward z go i fuel x = some y ∧ z.header :: pre = ahd ++ y :: low ∧
        i < z.height y ∧ ∀ v ∈ low, z.tall i v = false := by
  intro fuel
  induction fuel with
  | zero => intro ahd mid x hf; omega
  | succ fuel ih =>
      intro ahd mid x hf hx hh
      rcases h.next hi hx hh with ⟨l, hlink, hlow, hpost⟩ | ⟨low, y, rest, hlink, rfl, hy, hmem⟩
      · refine ⟨ahd, x, mid, ?_, hx, hh, hlow⟩
        rw [goForward, hlink]
        cases hnext : l.forward with
        | none => simp only [hnext]
        | some y =>
            obtain ⟨n, hn, hb⟩ := hc.behind y (hpost y hnext)
            simp [hnext, hn, hb]
      · obtain ⟨n, hn, hb⟩ := hc.before y hmem
        rw [goForward, hlink]
        simp only [hn, hb, if_true]
        refine ih (ahd ++ x :: low) rest y ?_ ?_ hy
        · simp only [List.length_append, List.length_cons] at hf
          omega
        · rw [hx, List.append_assoc]
          rfl

omit [LinearOrder σ] in
/-- **The walk** ends at the last node before the place, on its lowest level. -/
theorem goDown_spec (h : Linked z (pre ++ post)) (hc : Cut z go pre post) :
    ∀ (i : Nat) (ahd mid : List NodeId) (x : NodeId), i + 1 ≤ z.level →
      z.header :: pre = ahd ++ x :: mid → i < z.height x →
      ∃ ahd y, goDown z go (i + 1) x = some y ∧ z.header :: pre = ahd ++ [y] := by
  intro i
  induction i with
  | zero =>
      intro ahd mid x hi hx hh
      have hlen : mid.length < z.length + 1 := by
        have := congrArg List.length hx
        have hl := h.length
        simp only [List.length_append, List.length_cons] at this hl
        omega
      obtain ⟨ahd, y, low, hgo, hy, _, hlow⟩ := goForward_spec h hc hi _ ahd mid x hlen hx hh
      have hnone : low = [] := by
        -- every node of the list has the lowest level
        cases low with
        | nil => rfl
        | cons v low =>
            have hv : v ∈ pre := by
              cases ahd with
              | nil => obtain ⟨_, rfl⟩ := List.cons.inj hy; simp
              | cons a ahd => obtain ⟨_, rfl⟩ := List.cons.inj hy; simp
            have hpos := (h.height v (by simp [hv])).1
            have := hlow v (by simp)
            simp only [Zskiplist.tall, decide_eq_false_iff_not] at this
            omega
      refine ⟨ahd, y, ?_, by rw [hy, hnone]⟩
      rw [goDown, hgo, Option.bind_some, goDown]
  | succ i ih =>
      intro ahd mid x hi hx hh
      have hlen : mid.length < z.length + 1 := by
        have := congrArg List.length hx
        have hl := h.length
        simp only [List.length_append, List.length_cons] at this hl
        omega
      obtain ⟨ahd, y, low, hgo, hy, hyh, _⟩ :=
        goForward_spec h hc (by omega) _ ahd mid x hlen hx hh
      obtain ⟨ahd', w, hdown, hw⟩ := ih ahd low y (by omega) hy (by omega)
      refine ⟨ahd', w, ?_, hw⟩
      rw [goDown, hgo, Option.bind_some, hdown]

omit [LinearOrder σ] in
/-- The walk from the header. -/
theorem goDown_header (h : Linked z (pre ++ post)) (hc : Cut z go pre post) :
    ∃ ahd y, goDown z go z.level z.header = some y ∧ z.header :: pre = ahd ++ [y] := by
  obtain ⟨level, hlevel⟩ : ∃ level, z.level = level + 1 :=
    ⟨z.level - 1, by have := h.levelPos; omega⟩
  have hmax := h.levelLe
  rw [hlevel]
  exact goDown_spec h hc level [] pre z.header (by omega) rfl (by rw [h.headerHeight]; omega)

omit [LinearOrder σ] in
/-- The lowest level of the last node before a place leads to the first one behind it. -/
theorem Linked.bottom_next (h : Linked z (pre ++ post)) {ahd : List NodeId}
    (hy : z.header :: pre = ahd ++ [y]) : ∃ l, z.lev y 0 = some l ∧ l.forward = post.head? := by
  have hpos : 0 < z.height y := by
    have hmem : y ∈ z.header :: pre := by rw [hy]; simp
    rcases List.mem_cons.mp hmem with rfl | hmem
    · rw [h.headerHeight]
      exact Nat.succ_pos _
    · exact (h.height y (by simp [hmem])).1
  refine ⟨linkTo z 0 post, h.links ahd y post ?_ 0 h.levelPos hpos, ?_⟩
  · rw [← List.cons_append, hy, List.append_assoc]
    rfl
  · exact linkTo_bottom (fun v hv => (h.height v (by simp [hv])).1)

/-! ## The order of the scores -/

/-- `y->score`. -/
def Zskiplist.score (z : Zskiplist σ) (y : NodeId) : Option σ := (z.node y).map (·.score)

/-- The elements are there, and their scores never decrease. -/
theorem Ok.scores {keys : List (σ ×ₗ List Nat)} (h : Ok z ids keys) :
    (∀ y ∈ ids, ∃ n, z.node y = some n) ∧
      ids.Pairwise (fun a b => ∀ n m, z.node a = some n → z.node b = some m → n.score ≤ m.score) := by
  have hkey : ∀ y ∈ ids, ∃ k, z.key y = some k := by
    intro y hy
    have hmem : z.key y ∈ ids.map z.key := List.mem_map_of_mem hy
    rw [h.ordered.nodes] at hmem
    obtain ⟨k, _, hk⟩ := List.mem_map.mp hmem
    exact ⟨k, hk.symm⟩
  constructor
  · intro y hy
    obtain ⟨k, hk⟩ := hkey y hy
    obtain ⟨n, _, hn, _⟩ := key_node hk
    exact ⟨n, hn⟩
  · have hsorted : (ids.map z.key).Pairwise (fun a b => ∀ j k, a = some j → b = some k → j < k) := by
      rw [h.ordered.nodes, List.pairwise_map]
      refine h.ordered.sorted.imp ?_
      intro a b hab j k hj hk
      cases hj
      cases hk
      exact hab
    rw [List.pairwise_map] at hsorted
    refine hsorted.imp_of_mem ?_
    intro a b ha hb hab n m hn hm
    obtain ⟨j, hj⟩ := hkey a ha
    obtain ⟨k, hk⟩ := hkey b hb
    have hlt := hab j k hj hk
    obtain ⟨n', o, hn', _, rfl⟩ := key_node hj
    obtain ⟨m', p, hm', _, rfl⟩ := key_node hk
    rw [hn] at hn'
    rw [hm] at hm'
    cases hn'
    cases hm'
    rw [keyOf, keyOf, Prod.Lex.toLex_lt_toLex] at hlt
    rcases hlt with hlt | ⟨heq, _⟩
    · exact le_of_lt hlt
    · exact le_of_eq heq

/-- No score up to an element is above its own. -/
theorem Ok.le_of_before {keys : List (σ ×ₗ List Nat)} (h : Ok z (pre ++ x :: post) keys)
    {n m : ZskiplistNode σ} (hy : y ∈ pre ++ [x]) (hn : z.node y = some n)
    (hm : z.node x = some m) : n.score ≤ m.score := by
  rcases List.mem_append.mp hy with hy | hy
  · exact (List.pairwise_append.mp h.scores.2).2.2 y hy x (by simp) n m hn hm
  · rw [List.mem_singleton.mp hy, hm] at hn
    cases hn
    exact le_refl _

/-- No score from an element on is below its own. -/
theorem Ok.le_of_behind {keys : List (σ ×ₗ List Nat)} (h : Ok z (pre ++ x :: post) keys)
    {n m : ZskiplistNode σ} (hy : y ∈ x :: post) (hn : z.node x = some n)
    (hm : z.node y = some m) : n.score ≤ m.score := by
  rcases List.mem_cons.mp hy with rfl | hy
  · rw [hn] at hm
    cases hm
    exact le_refl _
  · have hright := (List.pairwise_append.mp h.scores.2).2.1
    exact (List.pairwise_cons.mp hright).1 y hy n m hn hm

/-- A test that goes from higher to lower scores cuts the list. -/
theorem Ok.cut {keys : List (σ ×ₗ List Nat)} (h : Ok z ids keys)
    (hgo : ∀ v w, v ≤ w → go w = true → go v = true) :
    ∃ pre post, ids = pre ++ post ∧ Cut z go pre post := by
  obtain ⟨hthere, hsorted⟩ := h.scores
  have hpair : ids.Pairwise (fun a b => z.passes go b = true → z.passes go a = true) := by
    refine hsorted.imp_of_mem ?_
    intro a b ha hb hab hpass
    obtain ⟨n, hn⟩ := hthere a ha
    obtain ⟨m, hm⟩ := hthere b hb
    rw [Zskiplist.passes, hm, Option.any_some] at hpass
    rw [Zskiplist.passes, hn, Option.any_some]
    exact hgo _ _ (hab n m hn hm) hpass
  obtain ⟨pre, post, rfl, hpre, hpost⟩ := split_of_pairwise hpair
  refine ⟨pre, post, rfl, ?_, ?_⟩
  · intro y hy
    obtain ⟨n, hn⟩ := hthere y (by simp [hy])
    have := hpre y hy
    rw [Zskiplist.passes, hn, Option.any_some] at this
    exact ⟨n, hn, this⟩
  · intro y hy
    obtain ⟨n, hn⟩ := hthere y (by simp [hy])
    have := hpost y hy
    rw [Zskiplist.passes, hn, Option.any_some] at this
    exact ⟨n, hn, this⟩

/-! ## The ends of a range -/

variable {keys : List (σ ×ₗ List Nat)} {range : Zrangespec σ}

/-- The score of an element lies in the range. -/
def Zskiplist.InRange (z : Zskiplist σ) (range : Zrangespec σ) (y : NodeId) : Prop :=
  ∃ v ∈ z.score y, v ∈ range.interval

theorem inRange_iff {n : ZskiplistNode σ} (hn : z.node y = some n) : z.InRange range y ↔
    zslValueGteMin n.score range = true ∧ zslValueLteMax n.score range = true := by
  rw [← mem_interval, Zskiplist.InRange, Zskiplist.score, hn]
  simp

/-- The first of a list with a property, if there is one. -/
def FirstWith {α : Type} (P : α → Prop) (xs : List α) : Option α → Prop
  | none => ∀ w ∈ xs, ¬P w
  | some y => P y ∧ ∃ pre post, xs = pre ++ y :: post ∧ ∀ w ∈ pre, ¬P w

/-- The last of a list with a property, if there is one. -/
def LastWith {α : Type} (P : α → Prop) (xs : List α) : Option α → Prop
  | none => ∀ w ∈ xs, ¬P w
  | some y => P y ∧ ∃ pre post, xs = pre ++ y :: post ∧ ∀ w ∈ post, ¬P w

/-- **The quick rejection** rejects nothing that has an element in the range; where it does
not reject, an element is not below the range and one is not above it. -/
theorem zslIsInRange_spec (h : Ok z ids keys) (range : Zrangespec σ) :
    ∃ b, zslIsInRange z range = some b ∧
      (b = true → (∃ y ∈ ids, ∃ n, z.node y = some n ∧ zslValueGteMin n.score range = true) ∧
        ∃ y ∈ ids, ∃ n, z.node y = some n ∧ zslValueLteMax n.score range = true) ∧
      (b = false → ∀ y ∈ ids, ¬z.InRange range y) := by
  have hthere := h.scores.1
  unfold zslIsInRange
  by_cases he : range.alwaysEmpty = true
  · rw [if_pos he]
    refine ⟨false, rfl, by simp, fun _ y _ hin => ?_⟩
    obtain ⟨v, _, hv⟩ := hin
    rw [alwaysEmpty_interval he] at hv
    exact hv
  rw [if_neg he, h.linked.tail]
  rcases List.eq_nil_or_concat' ids with rfl | ⟨front, last, hlast⟩
  · exact ⟨false, rfl, by simp, by simp⟩
  obtain ⟨first, rest, hfirst⟩ : ∃ first rest, ids = first :: rest := by
    cases ids with
    | nil => simp at hlast
    | cons a ids => exact ⟨a, ids, rfl⟩
  obtain ⟨n, hn⟩ := hthere last (by rw [hlast]; simp)
  obtain ⟨m, hm⟩ := hthere first (by rw [hfirst]; simp)
  have htail : ids.getLast? = some last := by rw [hlast]; simp
  rw [htail]
  simp only [hn]
  cases hg : zslValueGteMin n.score range with
  | false =>
      refine ⟨false, rfl, by simp, fun _ y hy hin => ?_⟩
      obtain ⟨k, hk⟩ := hthere y hy
      rw [hlast] at h hy
      have := zslValueGteMin_mono (h.le_of_before hy hk hn) ((inRange_iff hk).mp hin).1
      simp [hg] at this
  | true =>
      obtain ⟨l, hl, hfwd⟩ := @Linked.bottom_next _ z z.header [] ids h.linked [] rfl
      have hhead : ids.head? = some first := by rw [hfirst]; rfl
      rw [hhead] at hfwd
      simp only [Bool.not_true, Bool.false_eq_true, if_false, hl, hfwd, hm]
      cases hx : zslValueLteMax m.score range with
      | false =>
          refine ⟨false, rfl, by simp, fun _ y hy hin => ?_⟩
          obtain ⟨k, hk⟩ := hthere y hy
          rw [hfirst] at h hy
          have hle := @Ok.le_of_behind _ _ z first y [] rest keys h m k hy hm hk
          have := zslValueLteMax_anti hle ((inRange_iff hk).mp hin).2
          simp [hx] at this
      | true =>
          exact ⟨true, rfl, fun _ => ⟨⟨last, by rw [hlast]; simp, n, hn, hg⟩,
            first, by rw [hfirst]; simp, m, hm, hx⟩, by simp⟩

/-- **`zslFirstInRange`** returns the first element in the range. -/
theorem zslFirstInRange_spec (h : Ok z ids keys) (range : Zrangespec σ) :
    ∃ r, zslFirstInRange z range = some r ∧ FirstWith (z.InRange range) ids r := by
  obtain ⟨b, hb, htrue, hfalse⟩ := zslIsInRange_spec h range
  unfold zslFirstInRange
  rw [hb, Option.bind_some]
  cases b with
  | false => exact ⟨none, rfl, hfalse rfl⟩
  | true =>
      obtain ⟨⟨w, hw, m, hm, hmin⟩, _⟩ := htrue rfl
      have hgo : ∀ v w : σ, v ≤ w → (!zslValueGteMin w range) = true →
          (!zslValueGteMin v range) = true := by
        intro v w hle hw
        rw [Bool.not_eq_true'] at hw ⊢
        exact Bool.eq_false_iff.mpr (fun hv => by simp [zslValueGteMin_mono hle hv] at hw)
      obtain ⟨pre, post, rfl, hc⟩ := h.cut hgo
      obtain ⟨ahd, y, hdown, hy⟩ := goDown_header h.linked hc
      obtain ⟨l, hl, hfwd⟩ := h.linked.bottom_next hy
      have hpre : ∀ w ∈ pre, ¬z.InRange range w := by
        intro w hw hin
        obtain ⟨n, hn, hlow⟩ := hc.before w hw
        simp [((inRange_iff hn).mp hin).1] at hlow
      -- the element that is not below the range is behind the place
      obtain ⟨x, rest, rfl⟩ : ∃ x rest, post = x :: rest := by
        cases post with
        | nil =>
            obtain ⟨n, hn, hlow⟩ := hc.before w (by simpa using hw)
            rw [hm] at hn
            cases hn
            simp [hmin] at hlow
        | cons x rest => exact ⟨x, rest, rfl⟩
      obtain ⟨n, hn, hx⟩ := hc.behind x (by simp)
      rw [Bool.not_eq_false'] at hx
      simp only [Bool.not_true, Bool.false_eq_true, if_false, hdown, Option.bind_some, hl, hfwd,
        List.head?_cons, hn, Option.map_some]
      cases hmax : zslValueLteMax n.score range with
      | false =>
          refine ⟨none, rfl, fun w hw hin => ?_⟩
          rcases List.mem_append.mp hw with hw | hw
          · exact hpre w hw hin
          · -- no later element is below the maximum either
            obtain ⟨k, hk⟩ := h.scores.1 w (by simp [hw])
            have := zslValueLteMax_anti (h.le_of_behind hw hn hk) ((inRange_iff hk).mp hin).2
            simp [hmax] at this
      | true => exact ⟨some x, rfl, (inRange_iff hn).mpr ⟨hx, hmax⟩, pre, rest, rfl, hpre⟩

/-- **`zslLastInRange`** returns the last element in the range. -/
theorem zslLastInRange_spec (h : Ok z ids keys) (range : Zrangespec σ) :
    ∃ r, zslLastInRange z range = some r ∧ LastWith (z.InRange range) ids r := by
  obtain ⟨b, hb, htrue, hfalse⟩ := zslIsInRange_spec h range
  unfold zslLastInRange
  rw [hb, Option.bind_some]
  cases b with
  | false => exact ⟨none, rfl, hfalse rfl⟩
  | true =>
      obtain ⟨_, w, hw, m, hm, hmax⟩ := htrue rfl
      obtain ⟨pre, post, rfl, hc⟩ := @Ok.cut _ _ _ _ (fun score => zslValueLteMax score range) _ h
        (fun v w hle hw => zslValueLteMax_anti hle hw)
      obtain ⟨ahd, y, hdown, hy⟩ := goDown_header h.linked hc
      have hpost : ∀ w ∈ post, ¬z.InRange range w := by
        intro w hw hin
        obtain ⟨n, hn, hhigh⟩ := hc.behind w hw
        simp [((inRange_iff hn).mp hin).2] at hhigh
      -- the element that is not above the range is before the place, so the walk left the header
      obtain ⟨front, rfl⟩ : ∃ front, pre = front ++ [y] := by
        cases ahd with
        | nil =>
            obtain ⟨_, rfl⟩ := List.cons.inj hy
            obtain ⟨n, hn, hhigh⟩ := hc.behind w (by simpa using hw)
            rw [hm] at hn
            cases hn
            simp [hmax] at hhigh
        | cons a front => exact ⟨front, (List.cons.inj hy).2⟩
      obtain ⟨n, hn, hx⟩ := hc.before y (by simp)
      simp only [Bool.not_true, Bool.false_eq_true, if_false, hdown, Option.bind_some, hn,
        Option.map_some]
      cases hmin : zslValueGteMin n.score range with
      | false =>
          refine ⟨none, rfl, fun w hw hin => ?_⟩
          rcases List.mem_append.mp hw with hw | hw
          · -- no earlier element is above the minimum either
            obtain ⟨k, hk⟩ := h.scores.1 w (by simp only [List.mem_append] at hw ⊢; tauto)
            rw [List.append_assoc] at h
            have := zslValueGteMin_mono (h.le_of_before hw hk hn) ((inRange_iff hk).mp hin).1
            simp [hmin] at this
          · exact hpost w hw hin
      | true =>
          exact ⟨some y, rfl, (inRange_iff hn).mpr ⟨hmin, hx⟩, front, post, by simp, hpost⟩

end Skiplist

end RedisCore
