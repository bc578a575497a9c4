/-
# `RedisCore.Zset.Edit` — `zslInsert` and `zslDelete` keep the shape

On a level that the new node has, the last node before the place is linked to it and it
to what came next; on the other levels one span grows by one.  Deletion is the same
backwards.  Both are proved lane by lane, from what `ahead` says about a list with and
without the node.
-/
import RedisCore.Zset.Links

namespace RedisCore

namespace Skiplist

open Lanes

variable {σ : Type} {z z' : Zskiplist σ} {x y w : NodeId} {i j : Nat}
  {ids pre post behind : List NodeId} {rank rank0 : UInt32}

/-! ## Lanes with and without a node -/

theorem linkTo_congr (h : ∀ v ∈ behind, z'.tall i v = z.tall i v) :
    linkTo z' i behind = linkTo z i behind := by
  unfold linkTo
  rw [ahead_congr h]

theorem linkTo_append_low {low : List NodeId} (h : ∀ v ∈ low, z.tall i v = false) :
    linkTo z i (low ++ behind) =
      ⟨(linkTo z i behind).forward, UInt32.ofNat low.length + (linkTo z i behind).span⟩ := by
  unfold linkTo
  rw [ahead_append_low h, ← UInt32.ofNat_add]

theorem linkTo_append_tall {mid : List NodeId} (h : ∃ v ∈ mid, z.tall i v = true) :
    linkTo z i (mid ++ behind) = linkTo z i mid := by
  unfold linkTo
  rw [ahead_append_tall h]

theorem linkTo_cons_tall (h : z.tall i w = true) : linkTo z i (w :: behind) = ⟨some w, 1⟩ := by
  unfold linkTo
  rw [ahead_cons_tall h]
  rfl

theorem linkTo_cons_low (h : z.tall i w = false) :
    linkTo z i (w :: behind) =
      ⟨(linkTo z i behind).forward, 1 + (linkTo z i behind).span⟩ := by
  have := @linkTo_append_low σ z i behind [w] (by simpa using h)
  simpa using this

/-- The lane after `linkLevel`. -/
def linkLane (x : NodeId) (rank0 : UInt32) (p : NodeId × UInt32)
    (lane : NodeId → Option ZskiplistLevel) : NodeId → Option ZskiplistLevel :=
  match lane p.1 with
  | none => lane
  | some l => Function.update (Function.update lane x (some ⟨l.forward, l.span - (rank0 - p.2)⟩))
      p.1 (some ⟨some x, (rank0 - p.2) + 1⟩)

/-- The lane after `widenLevel`. -/
def widenLane (p : NodeId × UInt32) (lane : NodeId → Option ZskiplistLevel) :
    NodeId → Option ZskiplistLevel :=
  match lane p.1 with
  | none => lane
  | some l => Function.update lane p.1 (some { l with span := l.span + 1 })

/-- The lane after `unlinkLevel`. -/
def unlinkLane (x : NodeId) (y : NodeId) (lane : NodeId → Option ZskiplistLevel) :
    NodeId → Option ZskiplistLevel :=
  match lane y with
  | none => lane
  | some l =>
      if l.forward = some x then
        match lane x with
        | none => lane
        | some lx => Function.update lane y (some ⟨lx.forward, l.span + (lx.span - 1)⟩)
      else Function.update lane y (some { l with span := l.span - 1 })

/-- What a lane has to be for a list of nodes. -/
def LaneOk (z : Zskiplist σ) (i : Nat) (ids : List NodeId)
    (lane : NodeId → Option ZskiplistLevel) : Prop :=
  ∀ ahd y behind, z.header :: ids = ahd ++ y :: behind → i < z.height y →
    lane y = some (linkTo z i behind)

theorem Linked.laneOk (h : Linked z ids) (hi : i < z.level) : LaneOk z i ids (z.lane i) :=
  fun ahd y behind heq hh => h.links ahd y behind heq i hi hh

/-- The heights of a list and of the list with one node more. -/
structure OneMore (z z' : Zskiplist σ) (x : NodeId) (pre post : List NodeId) : Prop where
  header : z'.header = z.header
  fresh : x ∉ z.header :: (pre ++ post)
  heights : ∀ v, v ≠ x → z'.height v = z.height v
  nodup : (z.header :: (pre ++ post)).Nodup

theorem OneMore.tall (h : OneMore z z' x pre post) {v : NodeId} (hv : v ≠ x) (i : Nat) :
    z'.tall i v = z.tall i v := by
  unfold Zskiplist.tall
  rw [h.heights v hv]

theorem OneMore.ne (h : OneMore z z' x pre post) {v : NodeId} (hv : v ∈ z.header :: (pre ++ post)) :
    v ≠ x := by
  rintro rfl
  exact h.fresh hv

theorem OneMore.congr (h : OneMore z z' x pre post)
    (hsub : ∀ v ∈ behind, v ∈ z.header :: (pre ++ post)) :
    linkTo z' i behind = linkTo z i behind :=
  linkTo_congr (fun v hv => h.tall (h.ne (hsub v hv)) i)

theorem OneMore.nodup_pre (h : OneMore z z' x pre post) : (z.header :: pre).Nodup := by
  have := h.nodup
  rw [← List.cons_append] at this
  exact (List.nodup_append.mp this).1

theorem OneMore.nodup_more (h : OneMore z z' x pre post) :
    (z.header :: (pre ++ x :: post)).Nodup := by
  have hperm : List.Perm (z.header :: pre ++ x :: post) (x :: (z.header :: pre ++ post)) :=
    List.perm_middle
  exact hperm.nodup_iff.mpr (List.nodup_cons.mpr ⟨h.fresh, h.nodup⟩)

/-- The last node before the place, with what is behind it. -/
theorem lane_last (hok : LaneOk z i (pre ++ post) (z.lane i))
    (hlast : IsLast z i (z.header :: pre) y rank) :
    ∃ ahd low, z.header :: pre = ahd ++ y :: low ∧ i < z.height y ∧
      (∀ v ∈ low, z.tall i v = false) ∧ rank = UInt32.ofNat ahd.length ∧
      z.lane i y = some ⟨(linkTo z i post).forward,
        UInt32.ofNat low.length + (linkTo z i post).span⟩ := by
  obtain ⟨ahd, low, hnodes, hh, hlow, hrank⟩ := hlast
  refine ⟨ahd, low, hnodes, hh, hlow, hrank, ?_⟩
  rw [hok ahd y (low ++ post) (by rw [← List.cons_append, hnodes, List.append_assoc]; rfl) hh,
    linkTo_append_low hlow]

theorem low_length {ahd low : List NodeId} (hnodes : z.header :: pre = ahd ++ y :: low) :
    UInt32.ofNat pre.length - UInt32.ofNat ahd.length = UInt32.ofNat low.length := by
  have := congrArg List.length hnodes
  simp only [List.length_append, List.length_cons] at this
  rw [← UInt32.ofNat_sub (by omega)]
  congr 1
  omega

/-- A lane with the new node, from what its last node before the place and the new node
have; everything else is as before. -/
theorem insertLane_ok (h : OneMore z z' x pre post) (hok : LaneOk z i (pre ++ post) (z.lane i))
    (hlast : IsLast z i (z.header :: pre) y rank) {lane : NodeId → Option ZskiplistLevel}
    (hothers : ∀ v, v ≠ x → v ≠ y → lane v = z.lane i v)
    (hy : ∀ low, (∀ v ∈ low, z.tall i v = false) → (∀ v ∈ low, v ∈ z.header :: (pre ++ post)) →
      UInt32.ofNat pre.length - rank = UInt32.ofNat low.length →
      lane y = some (linkTo z' i (low ++ x :: post)))
    (hx : i < z'.height x → lane x = some (linkTo z' i post)) :
    LaneOk z' i (pre ++ x :: post) lane := by
  have hymem : y ∈ z.header :: pre := by
    obtain ⟨ahd, low, hnodes, _⟩ := hlast
    rw [hnodes]
    simp
  intro ahd w behind heq hw
  rw [h.header, ← List.cons_append] at heq
  rcases append_cons_cases heq with ⟨mid, hA, hB⟩ | ⟨hA, rfl, hB⟩ | ⟨mid, hA, hB⟩
  · -- `w` is before the new node
    have hwmem : w ∈ z.header :: pre := by rw [hA]; simp
    have hwx : w ≠ x := h.ne (by rw [← List.cons_append]; exact List.mem_append_left _ hwmem)
    have hmidsub : ∀ v ∈ mid, v ∈ z.header :: (pre ++ post) := by
      intro v hv
      rw [← List.cons_append, hA]
      simp [hv]
    rw [h.heights w hwx] at hw
    rcases hlast.cases h.nodup_pre hA hw with ⟨rfl, hmid, hr⟩ | ⟨hne, htall⟩
    · rw [hB]
      exact hy mid hmid hmidsub (by rw [hr]; exact low_length hA)
    · have htall' : ∃ v ∈ mid, z'.tall i v = true := by
        obtain ⟨v, hv, htv⟩ := htall
        exact ⟨v, hv, by rw [h.tall (h.ne (hmidsub v hv))]; exact htv⟩
      rw [hothers w hwx hne,
        hok ahd w (mid ++ post) (by rw [← List.cons_append, hA, List.append_assoc]; rfl) hw,
        linkTo_append_tall htall, hB, linkTo_append_tall htall', h.congr hmidsub]
  · -- `w` is the new node
    rw [← hB]
    exact hx hw
  · -- `w` is behind it
    have hwmem : w ∈ post := by rw [hB]; simp
    have hwx : w ≠ x := h.ne (by simp [hwmem])
    have hwy : w ≠ y := by
      rintro rfl
      have := h.nodup
      rw [← List.cons_append] at this
      exact (List.nodup_append.mp this).2.2 w hymem w hwmem rfl
    rw [h.heights w hwx] at hw
    rw [hothers w hwx hwy, hok (z.header :: pre ++ mid) w behind (by rw [hB]; simp) hw, h.congr]
    intro v hv
    rw [hB]
    simp [hv]

/-- A level the new node has. -/
theorem linkLane_ok (h : OneMore z z' x pre post) (hok : LaneOk z i (pre ++ post) (z.lane i))
    (hlast : IsLast z i (z.header :: pre) y rank) (hx : i < z'.height x)
    {lane : NodeId → Option ZskiplistLevel} (hlane : ∀ v, v ≠ x → lane v = z.lane i v) :
    LaneOk z' i (pre ++ x :: post) (linkLane x (UInt32.ofNat pre.length) (y, rank) lane) := by
  obtain ⟨ahd, low, hnodes, hh, hlow, hrank, hold⟩ := lane_last hok hlast
  have hyx : y ≠ x := h.ne (by
    rw [← List.cons_append, hnodes]
    simp)
  have hlen : UInt32.ofNat pre.length - rank = UInt32.ofNat low.length := by
    rw [hrank]
    exact low_length hnodes
  have hpost : linkTo z' i post = linkTo z i post := h.congr (by simp +contextual)
  unfold linkLane
  rw [hlane y hyx, hold]
  simp only
  refine insertLane_ok h hok hlast ?_ ?_ ?_
  · intro v hvx hvy
    rw [Function.update_of_ne hvy, Function.update_of_ne hvx, hlane v hvx]
  · intro low' hlow' hsub hlen'
    have hlow'' : ∀ v ∈ low', z'.tall i v = false := by
      intro v hv
      rw [h.tall (h.ne (hsub v hv))]
      exact hlow' v hv
    rw [Function.update_self, linkTo_append_low hlow'',
      linkTo_cons_tall (show z'.tall i x = true by simp [Zskiplist.tall, hx]), hlen']
  · intro _
    rw [Function.update_of_ne hyx.symm, Function.update_self, hpost, hlen, UInt32.add_comm,
      UInt32.add_sub_cancel]

/-- A level the new node does not have. -/
theorem widenLane_ok (h : OneMore z z' x pre post) (hok : LaneOk z i (pre ++ post) (z.lane i))
    (hlast : IsLast z i (z.header :: pre) y rank) (hx : z'.height x ≤ i)
    {lane : NodeId → Option ZskiplistLevel} (hlane : ∀ v, v ≠ x → lane v = z.lane i v) :
    LaneOk z' i (pre ++ x :: post) (widenLane (y, rank) lane) := by
  obtain ⟨ahd, low, hnodes, hh, hlow, hrank, hold⟩ := lane_last hok hlast
  have hyx : y ≠ x := h.ne (by
    rw [← List.cons_append, hnodes]
    simp)
  have hlen : UInt32.ofNat pre.length - rank = UInt32.ofNat low.length := by
    rw [hrank]
    exact low_length hnodes
  have hpost : linkTo z' i post = linkTo z i post := h.congr (by simp +contextual)
  unfold widenLane
  rw [hlane y hyx, hold]
  simp only
  refine insertLane_ok h hok hlast ?_ ?_ ?_
  · intro v hvx hvy
    rw [Function.update_of_ne hvy, hlane v hvx]
  · intro low' hlow' hsub hlen'
    have hlow'' : ∀ v ∈ low', z'.tall i v = false := by
      intro v hv
      rw [h.tall (h.ne (hsub v hv))]
      exact hlow' v hv
    rw [Function.update_self, linkTo_append_low hlow'',
      linkTo_cons_low (show z'.tall i x = false by simp [Zskiplist.tall, hx]), hpost, ← hlen', hlen,
      UInt32.add_assoc, UInt32.add_comm (linkTo z i post).span]
  · intro hlt
    omega

/-- The lane without a node, from what the last node before it has. -/
theorem unlinkLane_ok (h : OneMore z' z x pre post)
    (hok : LaneOk z i (pre ++ x :: post) (z.lane i))
    (hlast : IsLast z i (z.header :: pre) y rank) :
    LaneOk z' i (pre ++ post) (unlinkLane x y (z.lane i)) := by
  obtain ⟨ahd₀, low₀, hnodes, hh, hlow, hrank, hold⟩ := lane_last hok hlast
  have hymem : y ∈ z'.header :: pre := by
    rw [← h.header, hnodes]
    simp
  have hyx : y ≠ x := h.ne (by
    rw [← List.cons_append]
    exact List.mem_append_left _ hymem)
  -- the link the last node gets, in either case
  have hnew : unlinkLane x y (z.lane i) = Function.update (z.lane i) y
      (some ⟨(linkTo z i post).forward, UInt32.ofNat low₀.length + (linkTo z i post).span⟩) := by
    unfold unlinkLane
    rw [hold]
    simp only
    by_cases htx : z.tall i x = true
    · have hx : z.lane i x = some (linkTo z i post) := by
        refine hok (z.header :: pre) x post (by simp) ?_
        simpa [Zskiplist.tall] using htx
      rw [linkTo_cons_tall htx, if_pos rfl, hx]
      simp only
      congr 3
      rw [UInt32.add_assoc]
      congr 1
      rw [UInt32.add_comm, UInt32.sub_add_cancel]
    · have hlowx : z.tall i x = false := Bool.eq_false_iff.mpr htx
      rw [linkTo_cons_low hlowx]
      simp only
      rw [if_neg]
      · congr 3
        rw [UInt32.add_comm 1, ← UInt32.add_assoc, UInt32.add_sub_cancel]
      · intro hfwd
        obtain ⟨low, rest, hpost, _⟩ := ahead_some hfwd
        exact h.fresh (by rw [hpost]; simp)
  rw [hnew]
  intro ahd w behind heq hw
  have hwmem : w ∈ z'.header :: (pre ++ post) := by rw [heq]; simp
  have hwx := h.ne hwmem
  rw [← h.heights w hwx] at hw
  rw [← List.cons_append] at heq
  rcases append_eq_append_cons heq with ⟨mid, hA, hB⟩ | ⟨mid, hA, hB⟩
  · -- `w` is before the place
    have hmidsub : ∀ v ∈ mid, v ∈ z'.header :: (pre ++ post) := by
      intro v hv
      rw [← List.cons_append, hA]
      simp [hv]
    have hA' : z.header :: pre = ahd ++ w :: mid := by rw [h.header, hA]
    have hnd : (z.header :: pre).Nodup := by
      rw [h.header]
      exact h.nodup_pre
    rcases hlast.cases hnd hA' hw with ⟨rfl, hmid, hr⟩ | ⟨hne, htall⟩
    · have hlen : UInt32.ofNat low₀.length = UInt32.ofNat mid.length := by
        rw [← low_length hnodes, ← hrank, hr]
        exact low_length hA'
      have hmid' : ∀ v ∈ mid, z'.tall i v = false := by
        intro v hv
        rw [← h.tall (h.ne (hmidsub v hv))]
        exact hmid v hv
      have hpost : linkTo z i post = linkTo z' i post := h.congr (by simp +contextual)
      rw [Function.update_self, hB, linkTo_append_low hmid', hlen, hpost]
    · have htall' : ∃ v ∈ mid, z'.tall i v = true := by
        obtain ⟨v, hv, htv⟩ := htall
        exact ⟨v, hv, by rw [← h.tall (h.ne (hmidsub v hv))]; exact htv⟩
      rw [Function.update_of_ne hne, hok ahd w (mid ++ x :: post)
          (by rw [← List.cons_append, hA', List.append_assoc]; rfl) hw,
        linkTo_append_tall htall, hB, linkTo_append_tall htall', h.congr hmidsub]
  · -- `w` is behind it
    have hwy : w ≠ y := by
      rintro rfl
      have hnd := h.nodup
      rw [← List.cons_append] at hnd
      exact (List.nodup_append.mp hnd).2.2 w hymem w (by rw [hB]; simp) rfl
    rw [Function.update_of_ne hwy, hok (z.header :: pre ++ x :: mid) w behind
      (by rw [hB]; simp) hw, h.congr]
    intro v hv
    rw [hB]
    simp [hv]

/-! ## The loops -/

theorem lane_of_lt {z : Zskiplist σ} (h : i < z.height w) : ∃ l, z.lane i w = some l :=
  lev_isSome.mpr h

theorem linkLevel_spec {p : NodeId × UInt32} (hx : i < z.height x) (hp : i < z.height p.1) :
    ∃ z', linkLevel x rank0 i p z = some z' ∧ Frame z z' ∧
      z'.lane i = linkLane x rank0 p (z.lane i) ∧ ∀ j, j ≠ i → z'.lane j = z.lane j := by
  obtain ⟨l, hl⟩ := lev_isSome.mpr hp
  obtain ⟨z₁, h₁, hf₁, hlane₁, hout₁⟩ := setLev_spec hx ⟨l.forward, l.span - (rank0 - p.2)⟩
  obtain ⟨z₂, h₂, hf₂, hlane₂, hout₂⟩ := setLev_spec (z := z₁) (x := p.1) (i := i)
    (by rw [hf₁.height]; exact hp) ⟨some x, (rank0 - p.2) + 1⟩
  refine ⟨z₂, ?_, hf₁.trans hf₂, ?_, ?_⟩
  · rw [linkLevel, hl]
    simp only [h₁, Option.bind_some, h₂]
  · rw [hlane₂, hlane₁, linkLane, show z.lane i p.1 = some l from hl]
  · intro j hj
    rw [hout₂ j hj, hout₁ j hj]

theorem widenLevel_spec {p : NodeId × UInt32} (hp : i < z.height p.1) :
    ∃ z', widenLevel i p z = some z' ∧ Frame z z' ∧ z'.lane i = widenLane p (z.lane i) ∧
      ∀ j, j ≠ i → z'.lane j = z.lane j := by
  obtain ⟨l, hl⟩ := lev_isSome.mpr hp
  obtain ⟨z₁, h₁, hf₁, hlane₁, hout₁⟩ := setLev_spec hp { l with span := l.span + 1 }
  refine ⟨z₁, ?_, hf₁, ?_, hout₁⟩
  · rw [widenLevel, hl]
    exact h₁
  · rw [hlane₁, widenLane, show z.lane i p.1 = some l from hl]

theorem unlinkLevel_spec (hy : i < z.height y)
    (hx : ∀ l, z.lane i y = some l → l.forward = some x → i < z.height x) :
    ∃ z', unlinkLevel x i y z = some z' ∧ Frame z z' ∧ z'.lane i = unlinkLane x y (z.lane i) ∧
      ∀ j, j ≠ i → z'.lane j = z.lane j := by
  obtain ⟨l, hl⟩ := lev_isSome.mpr hy
  unfold unlinkLevel unlinkLane
  rw [hl, show z.lane i y = some l from hl]
  simp only
  split
  · next hfwd =>
      obtain ⟨lx, hlx⟩ := lev_isSome.mpr (hx l hl hfwd)
      rw [hlx, show z.lane i x = some lx from hlx]
      exact setLev_spec hy _
  · exact setLev_spec hy _

/-- A level comes into use, with the header on it. -/
theorem raiseLevel_spec (hp : i < z.height w) (rank : UInt32) :
    ∃ z', raiseLevel i (w, rank) z = some z' ∧ Frame z z' ∧
      z'.lane i = Function.update (z.lane i) w
        ((z.lane i w).map (fun l => ⟨l.forward, UInt32.ofNat z.length⟩)) ∧
      ∀ j, j ≠ i → z'.lane j = z.lane j := by
  obtain ⟨l, hl⟩ := lev_isSome.mpr hp
  obtain ⟨z₁, h₁, hf₁, hlane₁, hout₁⟩ := setLev_spec hp { l with span := UInt32.ofNat z.length }
  refine ⟨z₁, ?_, hf₁, ?_, hout₁⟩
  · rw [raiseLevel, hl]
    exact h₁
  · rw [hlane₁, show z.lane i w = some l from hl]
    rfl

/-! ## Insertion -/

/-- The levels above the highest in use are those of an empty list, and become so many
levels that are in use. -/
theorem raise_spec (h : Linked z ids) {level : Nat} (hlevel : level ≤ ZSKIPLIST_MAXLEVEL) :
    ∃ z₁, forLevels raiseLevel z.level (List.replicate (level - z.level) (z.header, 0)) z =
        some z₁ ∧ Frame z z₁ ∧
      Linked { z₁ with level := if level > z₁.level then level else z₁.level } ids := by
  obtain ⟨z₁, heq, hframe, hout, hin⟩ := @forLevels_spec _ z _
    raiseLevel (fun i p _ => i < z.height p.1)
    (fun i p lane => Function.update lane p.1
      ((lane p.1).map (fun l => ⟨l.forward, UInt32.ofNat z.length⟩)))
    (fun i p z₂ hf hP => by
      obtain ⟨z', h₁, h₂, h₃, h₄⟩ := raiseLevel_spec (z := z₂) (w := p.1) (i := i)
        (by rw [hf.height]; exact hP) p.2
      exact ⟨z', h₁, h₂, by rw [h₃, hf.length], h₄⟩)
    (List.replicate (level - z.level) (z.header, 0)) z.level z (Frame.refl z)
    (by
      intro k p hk
      obtain ⟨hk', hp⟩ := List.getElem?_eq_some_iff.mp hk
      simp only [List.length_replicate] at hk'
      simp only [List.getElem_replicate] at hp
      subst hp
      rw [h.headerHeight]
      omega)
  refine ⟨z₁, heq, hframe, ?_⟩
  have hbelow : ∀ j, j < z.level → z₁.lane j = z.lane j := fun j hj => hout j (Or.inl hj)
  have habove : ∀ j, level ≤ j → z.level ≤ j → z₁.lane j = z.lane j := by
    intro j hj hj'
    refine hout j (Or.inr ?_)
    rw [List.length_replicate]
    omega
  have hnew : ∀ j, z.level ≤ j → j < level →
      z₁.lane j z.header = some ⟨none, UInt32.ofNat z.length⟩ := by
    intro j hj hj'
    obtain ⟨l, hl, hfwd⟩ := h.unused j hj (by omega)
    have := hin (j - z.level) (z.header, 0) (by
      rw [List.getElem?_replicate, if_pos (by omega)])
    rw [show z.level + (j - z.level) = j by omega] at this
    rw [this, Function.update_self, hl, Option.map_some, hfwd]
  have hlev : z₁.level = z.level := hframe.level
  constructor
  · show (z₁.header :: ids).Nodup
    rw [hframe.header]
    exact h.nodup
  · show z₁.height z₁.header = _
    rw [hframe.height, hframe.header, h.headerHeight]
  · intro y hy
    obtain ⟨h₁, h₂⟩ := h.height y hy
    refine ⟨by show 0 < z₁.height y; rw [hframe.height]; exact h₁, ?_⟩
    show z₁.height y ≤ if level > z₁.level then level else z₁.level
    rw [hframe.height, hlev]
    split <;> omega
  · have := h.levelPos
    show 0 < if level > z₁.level then level else z₁.level
    rw [hlev]
    split <;> omega
  · have := h.levelLe
    show (if level > z₁.level then level else z₁.level) ≤ _
    rw [hlev]
    split <;> omega
  · intro ahd y behind hids j hj hh
    replace hids : z.header :: ids = ahd ++ y :: behind := by rw [← hids, ← hframe.header]
    replace hh : j < z.height y := by rw [← hframe.height]; exact hh
    replace hj : j < if level > z.level then level else z.level := by rw [← hlev]; exact hj
    have hlink : linkTo { z₁ with level := if level > z₁.level then level else z₁.level } j behind =
        linkTo z j behind := linkTo_congr (fun v _ => by
      show decide (j < z₁.height v) = decide (j < z.height v)
      rw [hframe.height])
    rw [hlink]
    show z₁.lane j y = _
    by_cases hjz : j < z.level
    · rw [hbelow j hjz]
      exact h.links ahd y behind hids j hjz hh
    · have hjl : j < level := by
        split at hj <;> omega
      -- only the header is as tall
      cases ahd with
      | cons a ahd =>
          have hmem : y ∈ ids := by
            rw [(List.cons.inj hids).2]
            simp
          have := (h.height y hmem).2
          omega
      | nil =>
          obtain ⟨rfl, rfl⟩ := List.cons.inj hids
          have hlow : ∀ v ∈ ids, z.tall j v = false := by
            intro v hv
            have := (h.height v hv).2
            simp only [Zskiplist.tall, decide_eq_false_iff_not]
            omega
          rw [hnew j (by omega) hjl, linkTo, ahead_none_of_low hlow, h.length]
  · intro j hj hj'
    replace hj : (if level > z.level then level else z.level) ≤ j := by rw [← hlev]; exact hj
    show ∃ l, z₁.lane j z₁.header = some l ∧ _
    rw [hframe.header, habove j (by split at hj <;> omega) (by split at hj <;> omega)]
    exact h.unused j (by split at hj <;> omega) hj'
  · intro ahd y behind hids
    show z₁.back y = _
    rw [hframe.back]
    exact h.backward ahd y behind hids
  · show z₁.tail = _
    rw [hframe.tail, h.tail]
  · show z₁.length = _
    rw [hframe.length, h.length]

/-- Writing `backward` of a node. -/
structure SetBack (z z' : Zskiplist σ) (x : NodeId) (b : Option NodeId) : Prop where
  header : z'.header = z.header
  tail : z'.tail = z.tail
  length : z'.length = z.length
  level : z'.level = z.level
  height : z'.height = z.height
  elem : z'.elem = z.elem
  lane : z'.lane = z.lane
  back : z'.back = Function.update z.back x (some b)

theorem setBackward_spec {n : ZskiplistNode σ} (hn : z.node x = some n) (b : Option NodeId) :
    ∃ z', z.setBackward x b = some z' ∧ SetBack z z' x b := by
  have heq : z.setBackward x b = some (z.setNode x (some { n with backward := b })) := by
    rw [Zskiplist.setBackward, hn]
  refine ⟨_, heq, ⟨rfl, rfl, rfl, rfl, ?_, ?_, ?_, ?_⟩⟩
  all_goals funext w
  · unfold Zskiplist.height Zskiplist.setNode
    simp only [Function.update_apply]
    by_cases hw : w = x
    · rw [if_pos hw, hw, hn]
    · rw [if_neg hw]
  · unfold Zskiplist.elem Zskiplist.setNode
    simp only [Function.update_apply]
    by_cases hw : w = x
    · rw [if_pos hw, hw, hn]
      rfl
    · rw [if_neg hw]
  · funext v
    unfold Zskiplist.lane Zskiplist.lev Zskiplist.setNode
    simp only [Function.update_apply]
    by_cases hv : v = x
    · rw [if_pos hv, hv, hn]
      rfl
    · rw [if_neg hv]
  · unfold Zskiplist.back Zskiplist.setNode
    simp only [Function.update_apply]
    by_cases hw : w = x
    · rw [if_pos hw, if_pos hw]
      rfl
    · rw [if_neg hw, if_neg hw]

theorem node_of_height (h : 0 < z.height x) : ∃ n, z.node x = some n := by
  cases hn : z.node x with
  | none => simp [Zskiplist.height, hn] at h
  | some n => exact ⟨n, rfl⟩

theorem length_zslCreateNode (level : Nat) (score : σ) (obj : Option StringObj) :
    (zslCreateNode level score obj).level.length = level := by
  simp [zslCreateNode]

/-- The new node is the only change. -/
theorem setNode_spec (z : Zskiplist σ) (x : NodeId) (n : ZskiplistNode σ) :
    (z.setNode x (some n)).height = Function.update z.height x n.level.length ∧
      (z.setNode x (some n)).elem = Function.update z.elem x (some (n.obj, n.score)) ∧
      (z.setNode x (some n)).back = Function.update z.back x (some n.backward) ∧
      ∀ j w, w ≠ x → (z.setNode x (some n)).lane j w = z.lane j w := by
  refine ⟨?_, ?_, ?_, ?_⟩
  · funext w
    unfold Zskiplist.height Zskiplist.setNode
    by_cases hw : w = x
    · simp only [hw, Function.update_self]
    · simp only [Function.update_of_ne hw]
  · funext w
    unfold Zskiplist.elem Zskiplist.setNode
    by_cases hw : w = x
    · simp only [hw, Function.update_self, Option.map_some]
    · simp only [Function.update_of_ne hw]
  · funext w
    unfold Zskiplist.back Zskiplist.setNode
    by_cases hw : w = x
    · simp only [hw, Function.update_self, Option.map_some]
    · simp only [Function.update_of_ne hw]
  · intro j w hw
    unfold Zskiplist.lane Zskiplist.lev Zskiplist.setNode
    simp only [Function.update_of_ne hw]

/-- On the lowest level every node is tall, and so the last one is the last of all. -/
theorem IsLast.bottom (h : Linked z ids) (hsub : ∀ v ∈ pre, v ∈ ids)
    (hlast : IsLast z 0 (z.header :: pre) y rank) :
    (z.header :: pre).getLast? = some y ∧ rank = UInt32.ofNat pre.length := by
  obtain ⟨ahd, low, hnodes, _, hlow, hrank⟩ := hlast
  have hnil : low = [] := by
    rw [List.eq_nil_iff_forall_not_mem]
    intro v hv
    have hpos : 0 < z.height v := by
      have hmem : v ∈ z.header :: pre := by rw [hnodes]; simp [hv]
      rcases List.mem_cons.mp hmem with rfl | hmem
      · rw [h.headerHeight]
        decide
      · exact (h.height v (hsub v hmem)).1
    exact absurd (hlow v hv) (by simp [Zskiplist.tall]; omega)
  subst hnil
  have hlen := congrArg List.length hnodes
  simp only [List.length_append, List.length_cons, List.length_nil] at hlen
  exact ⟨by rw [hnodes]; simp, by rw [hrank]; congr 1; omega⟩

theorem getLast?_header (h : (z.header :: pre).Nodup) (hy : (z.header :: pre).getLast? = some y) :
    (if y = z.header then none else some y) = pre.getLast? := by
  cases hl : pre.getLast? with
  | none =>
      rw [List.getLast?_eq_none_iff.mp hl] at hy
      cases hy
      exact if_pos rfl
  | some v =>
      rw [List.getLast?_cons, hl] at hy
      cases hy
      have hmem := List.mem_of_getLast? hl
      refine if_neg ?_
      rintro rfl
      exact (List.nodup_cons.mp h).1 hmem

/-- Every link is right, `backward` is not set yet for the new node and the one behind it. -/
structure AlmostLinked (z z' : Zskiplist σ) (x : NodeId) (pre post : List NodeId) : Prop where
  oneMore : OneMore z z' x pre post
  lanes : ∀ j, j < z'.level → LaneOk z' j (pre ++ x :: post) (z'.lane j)
  back : ∀ v, v ≠ x → z'.back v = z.back v
  tail : z'.tail = z.tail

/-- `linkBackward` completes the list. -/
theorem linkBackward_spec (h : Linked z (pre ++ post)) (ha : AlmostLinked z z' x pre post)
    (hx : 0 < z'.height x) (hlevel : 0 < z'.level)
    (hy : (z.header :: pre).getLast? = some y) :
    ∃ z'', linkBackward z' x y = some z'' ∧ z''.header = z'.header ∧ z''.level = z'.level ∧
      z''.length = z'.length ∧ z''.height = z'.height ∧ z''.elem = z'.elem ∧ z''.lane = z'.lane ∧
      z''.tail = (pre ++ x :: post).getLast? ∧
      ∀ ahd w behind, pre ++ x :: post = ahd ++ w :: behind → z''.back w = some ahd.getLast? := by
  have hom := ha.oneMore
  obtain ⟨n, hn⟩ := node_of_height hx
  have hback : (if y = z'.header then none else some y) = pre.getLast? := by
    rw [hom.header]
    exact getLast?_header hom.nodup_pre hy
  obtain ⟨z₁, h₁, hs₁⟩ := setBackward_spec hn (pre.getLast?)
  have hlane : z₁.lev x 0 = some (linkTo z' 0 post) := by
    show z₁.lane 0 x = _
    rw [hs₁.lane]
    exact ha.lanes 0 hlevel (z'.header :: pre) x post (by simp) hx
  -- what `backward` says of the nodes before the new one, and of those not next to it
  have hold : ∀ ahd w behind, pre ++ post = ahd ++ w :: behind → z₁.back w = some ahd.getLast? := by
    intro ahd w behind heq
    have hwx : w ≠ x := hom.ne (by rw [heq]; simp)
    rw [hs₁.back, Function.update_of_ne hwx, ha.back w hwx]
    exact h.backward ahd w behind heq
  have hself : z₁.back x = some pre.getLast? := by rw [hs₁.back, Function.update_self]
  unfold linkBackward
  rw [hback, h₁, Option.bind_some, hlane]
  simp only
  cases post with
  | nil =>
      refine ⟨{ z₁ with tail := some x }, rfl, hs₁.header, hs₁.level, hs₁.length, hs₁.height,
        hs₁.elem, hs₁.lane, by simp, ?_⟩
      intro ahd w behind heq
      rcases append_cons_cases heq with ⟨mid, hA, hB⟩ | ⟨hA, rfl, hB⟩ | ⟨mid, hA, hB⟩
      · exact hold ahd w mid (by rw [hA]; simp)
      · rw [← hA]
        exact hself
      · exact absurd hB (by simp)
  | cons next post =>
      have hnextpos : 0 < z'.height next := by
        rw [hom.heights next (hom.ne (by simp))]
        exact (h.height next (by simp)).1
      have hnextx : next ≠ x := hom.ne (by simp)
      have hfwd : (linkTo z' 0 (next :: post)).forward = some next := by
        rw [linkTo_cons_tall (by simpa [Zskiplist.tall] using hnextpos)]
      obtain ⟨nn, hnn⟩ := node_of_height (z := z₁) (x := next) (by rw [hs₁.height]; exact hnextpos)
      obtain ⟨z₂, h₂, hs₂⟩ := setBackward_spec hnn (some x)
      rw [hfwd]
      refine ⟨z₂, h₂, hs₂.header.trans hs₁.header, hs₂.level.trans hs₁.level,
        hs₂.length.trans hs₁.length, hs₂.height.trans hs₁.height, hs₂.elem.trans hs₁.elem,
        hs₂.lane.trans hs₁.lane, ?_, ?_⟩
      · rw [hs₂.tail, hs₁.tail, ha.tail, h.tail]
        simp [List.getLast?_append, List.getLast?_cons_cons]
      · have hother : ∀ v, v ≠ next → z₂.back v = z₁.back v := by
          intro v hv
          rw [hs₂.back, Function.update_of_ne hv]
        have hnd := (List.nodup_cons.mp hom.nodup).2
        intro ahd w behind heq
        rcases append_cons_cases heq with ⟨mid, hA, hB⟩ | ⟨hA, rfl, hB⟩ | ⟨mid, hA, hB⟩
        · have hne : w ≠ next := by
            rintro rfl
            rw [hA] at hnd
            simp [List.nodup_append] at hnd
          rw [hother w hne]
          exact hold ahd w (mid ++ next :: post) (by rw [hA]; simp)
        · rw [hother x hnextx.symm, ← hA]
          exact hself
        · cases mid with
          | nil =>
              obtain ⟨rfl, _⟩ := List.cons.inj hB
              rw [hs₂.back, Function.update_self, hA]
              simp
          | cons v mid =>
              obtain ⟨rfl, hB'⟩ := List.cons.inj hB
              have hne : w ≠ next := by
                rintro rfl
                rw [hB'] at hnd
                simp [List.nodup_append] at hnd
              rw [hother w hne, hold (pre ++ next :: mid) w behind (by rw [hB']; simp), hA]
              simp [List.getLast?_append]

theorem IsLast.congr {nodes : List NodeId} (h : IsLast z i nodes y rank)
    (hheight : z'.height = z.height) : IsLast z' i nodes y rank := by
  obtain ⟨ahd, low, hnodes, hh, hlow, hrank⟩ := h
  refine ⟨ahd, low, hnodes, by rw [hheight]; exact hh, ?_, hrank⟩
  intro v hv
  have := hlow v hv
  rw [Zskiplist.tall] at this ⊢
  rw [hheight]
  exact this

/-- `update` and `rank` after the levels have been raised. -/
theorem raised_last (h : Linked z (pre ++ post)) {update : List (NodeId × UInt32)} {count : Nat}
    (hlen : update.length = z.level) (hmax : z.level + count ≤ ZSKIPLIST_MAXLEVEL)
    (hlast : ∀ j p, update[j]? = some p → IsLast z j (z.header :: pre) p.1 p.2) :
    ∀ j p, (update ++ List.replicate count (z.header, 0))[j]? = some p →
      IsLast z j (z.header :: pre) p.1 p.2 := by
  intro j p hj
  by_cases hjl : j < update.length
  · rw [List.getElem?_append_left hjl] at hj
    exact hlast j p hj
  · rw [List.getElem?_append_right (by omega)] at hj
    obtain ⟨hk, hp⟩ := List.getElem?_eq_some_iff.mp hj
    simp only [List.length_replicate] at hk
    simp only [List.getElem_replicate] at hp
    subst hp
    refine ⟨[], pre, rfl, by rw [h.headerHeight]; omega, ?_, rfl⟩
    intro v hv
    have := (h.height v (by simp [hv])).2
    simp only [Zskiplist.tall, decide_eq_false_iff_not]
    omega

/-- The two loops over the levels of `zslInsert`, on a list with its levels raised. -/
theorem linkLoops_spec (h : Linked z (pre ++ post)) {update : List (NodeId × UInt32)} {level : Nat}
    (hlen : update.length = z.level) (hlevel : level ≤ z.level)
    (hlast : ∀ j p, update[j]? = some p → IsLast z j (z.header :: pre) p.1 p.2)
    (hfresh : x ∉ z.header :: (pre ++ post)) {n : ZskiplistNode σ} (hn : n.level.length = level) :
    ∃ z₄ z₅, forLevels (linkLevel x (UInt32.ofNat pre.length)) 0 (update.take level)
        (z.setNode x (some n)) = some z₄ ∧
      forLevels widenLevel level (update.drop level) z₄ = some z₅ ∧
      Frame (z.setNode x (some n)) z₅ ∧ AlmostLinked z z₅ x pre post ∧
      ∀ j, z.level ≤ j → ∀ w, w ≠ x → z₅.lane j w = z.lane j w := by
  obtain ⟨hheight, helem, hback, hlane⟩ := setNode_spec z x n
  have hne : ∀ j p, update[j]? = some p → p.1 ≠ x ∧ j < z.height p.1 := by
    intro j p hj
    obtain ⟨ahd, low, hnodes, hh, _⟩ := hlast j p hj
    refine ⟨?_, hh⟩
    intro hpx
    refine hfresh ?_
    rw [← List.cons_append, hnodes, ← hpx]
    simp
  have hheight₃ : ∀ v, v ≠ x → (z.setNode x (some n)).height v = z.height v := by
    intro v hv
    rw [hheight, Function.update_of_ne hv]
  have hx₃ : (z.setNode x (some n)).height x = level := by rw [hheight, Function.update_self, hn]
  obtain ⟨z₄, h₄, hf₄, hout₄, hin₄⟩ := @forLevels_spec _ (z.setNode x (some n)) _
    (linkLevel x (UInt32.ofNat pre.length))
    (fun j p _ => j < level ∧ p.1 ≠ x ∧ j < z.height p.1)
    (fun _ p lane => linkLane x (UInt32.ofNat pre.length) p lane)
    (fun j p z₂ hf hP => linkLevel_spec
      (by rw [hf.height, hx₃]; exact hP.1) (by rw [hf.height, hheight₃ _ hP.2.1]; exact hP.2.2))
    (update.take level) 0 (z.setNode x (some n)) (Frame.refl _)
    (by
      intro k p hk
      have hkl : k < level := by
        have := (List.getElem?_eq_some_iff.mp hk).1
        rw [List.length_take] at this
        omega
      rw [List.getElem?_take_of_lt hkl] at hk
      rw [Nat.zero_add]
      exact ⟨hkl, hne k p hk⟩)
  obtain ⟨z₅, h₅, hf₅, hout₅, hin₅⟩ := @forLevels_spec _ (z.setNode x (some n)) _
    widenLevel (fun j p _ => p.1 ≠ x ∧ j < z.height p.1)
    (fun _ p lane => widenLane p lane)
    (fun j p z₂ hf hP => widenLevel_spec (by rw [hf.height, hheight₃ _ hP.1]; exact hP.2))
    (update.drop level) level z₄ hf₄
    (by
      intro k p hk
      rw [List.getElem?_drop] at hk
      exact hne _ p hk)
  have hframe := hf₄.trans hf₅
  have htake : (update.take level).length = level := by
    rw [List.length_take]
    omega
  have hdrop : level + (update.drop level).length = z.level := by
    rw [List.length_drop]
    omega
  have hom : OneMore z z₅ x pre post :=
    ⟨hframe.header, hfresh, fun v hv => by rw [hframe.height, hheight₃ v hv], h.nodup⟩
  refine ⟨z₄, z₅, h₄, h₅, hframe, ⟨hom, ?_, ?_, hframe.tail⟩, ?_⟩
  · intro j hj
    replace hj : j < z.level := by rw [hframe.level] at hj; exact hj
    obtain ⟨p, hp⟩ : ∃ p, update[j]? = some p := ⟨_, List.getElem?_eq_getElem (by omega)⟩
    by_cases hjl : j < level
    · have h₄lane := hin₄ j p (by rw [List.getElem?_take_of_lt hjl]; exact hp)
      rw [Nat.zero_add] at h₄lane
      rw [hout₅ j (Or.inl hjl), h₄lane]
      exact linkLane_ok hom (h.laneOk hj) (hlast j p hp)
        (by rw [hframe.height, hx₃]; exact hjl) (hlane j)
    · have h₅lane := hin₅ (j - level) p (by
        rw [List.getElem?_drop, show level + (j - level) = j by omega]
        exact hp)
      rw [show level + (j - level) = j by omega, hout₄ j (Or.inr (by omega))] at h₅lane
      rw [h₅lane]
      exact widenLane_ok hom (h.laneOk hj) (hlast j p hp)
        (by rw [hframe.height, hx₃]; omega) (hlane j)
  · intro v hv
    rw [hframe.back, hback, Function.update_of_ne hv]
  · intro j hj w hw
    rw [hout₅ j (Or.inr (by omega)), hout₄ j (Or.inr (by omega)), hlane j w hw]

variable [LinearOrder σ] {score : σ} {obj : StringObj}

/-- **`zslInsert`** puts the new node at its place. -/
theorem zslInsert_linked (h : Linked z (pre ++ post)) (hp : Place z score obj pre post)
    {level : Nat} (hpos : 0 < level) (hmax : level ≤ ZSKIPLIST_MAXLEVEL) (hfresh : z.node x = none) :
    ∃ z', zslInsert z score obj level x = some z' ∧ Linked z' (pre ++ x :: post) ∧
      z'.header = z.header ∧ z'.level = (if level > z.level then level else z.level) ∧
      z'.height = Function.update z.height x level ∧
      z'.elem = Function.update z.elem x (some (some obj, score)) := by
  have hlpos := h.levelPos
  have hlmax := h.levelLe
  obtain ⟨update, hsearch, hulen, hulast⟩ :=
    search_spec h hp z.level z.header 0 (Nat.le_refl _) (Or.inr ⟨rfl, rfl⟩)
  obtain ⟨z₁, hraise, hf₁, hlinked₁⟩ := raise_spec h hmax
  have hlev₁ : (if level > z₁.level then level else z₁.level) =
      if level > z.level then level else z.level := by rw [hf₁.level]
  rw [hlev₁] at hlinked₁
  let newLevel := if level > z.level then level else z.level
  have hnew : newLevel = z.level + (level - z.level) ∧ level ≤ newLevel := by
    show (if level > z.level then level else z.level) = _ ∧ level ≤ if _ then _ else _
    split <;> omega
  let z₂ : Zskiplist σ := { z₁ with level := newLevel }
  have hheight₂ : z₂.height = z.height := hf₁.height
  have hheader₂ : z₂.header = z.header := hf₁.header
  let update' := update ++ List.replicate (level - z.level) (z.header, (0 : UInt32))
  have hlen' : update'.length = z₂.level := by
    show (update ++ List.replicate (level - z.level) (z.header, (0 : UInt32))).length = newLevel
    rw [List.length_append, List.length_replicate, hulen, hnew.1]
  have hlast' : ∀ j p, update'[j]? = some p → IsLast z₂ j (z₂.header :: pre) p.1 p.2 := by
    intro j p hj
    rw [hheader₂]
    refine (raised_last h hulen ?_ hulast j p hj).congr hheight₂
    omega
  obtain ⟨⟨y, rank0⟩, rest, hcons⟩ : ∃ p rest, update' = p :: rest := by
    cases hu : update' with
    | nil =>
        have hz : update'.length = newLevel := hlen'
        rw [hu, List.length_nil] at hz
        omega
    | cons p rest => exact ⟨p, rest, rfl⟩
  obtain ⟨hylast, hrank0⟩ := (hlast' 0 (y, rank0) (by rw [hcons]; rfl)).bottom hlinked₁
    (fun v hv => by simp [hv])
  simp only at hylast hrank0
  have hfresh₂ : x ∉ z₂.header :: (pre ++ post) := by
    intro hmem
    have hpos : 0 < z.height x := by
      rw [hheader₂] at hmem
      rcases List.mem_cons.mp hmem with rfl | hmem
      · rw [h.headerHeight]
        decide
      · exact (h.height x hmem).1
    obtain ⟨n, hn⟩ := node_of_height hpos
    rw [hfresh] at hn
    exact absurd hn (by simp)
  obtain ⟨z₄, z₅, h₄, h₅, hf₅, halmost, hrest⟩ := linkLoops_spec hlinked₁ hlen' hnew.2 hlast'
    hfresh₂ (length_zslCreateNode level score (some obj))
  obtain ⟨hheight₃, helem₃, _, _⟩ := setNode_spec z₂ x (zslCreateNode level score (some obj))
  have hheight₅ : z₅.height = Function.update z.height x level := by
    rw [hf₅.height, hheight₃, length_zslCreateNode, hheight₂]
  have hlevel₅ : z₅.level = newLevel := hf₅.level
  obtain ⟨z₆, h₆, hheader₆, hlevel₆, hlength₆, hheight₆, helem₆, hlane₆, htail₆, hback₆⟩ :=
    linkBackward_spec hlinked₁ halmost (by rw [hheight₅, Function.update_self]; exact hpos)
      (by rw [hlevel₅]; omega) hylast
  have hom := halmost.oneMore
  have hheader₅ : z₅.header = z.header := hom.header.trans hheader₂
  refine ⟨{ z₆ with length := z₆.length + 1 }, ?_, ?_, ?_, ?_, ?_, ?_⟩
  · unfold zslInsert
    rw [hsearch]
    simp only
    rw [show (update ++ List.replicate (level - z.level) (z.header, (0 : UInt32))).drop z.level =
      List.replicate (level - z.level) (z.header, 0) by rw [← hulen, List.drop_left], hraise,
      Option.bind_some, hlev₁, show update ++ List.replicate (level - z.level) (z.header, (0 : UInt32)) =
      (y, rank0) :: rest from hcons]
    simp only
    rw [← hcons, hrank0]
    show ((forLevels (linkLevel x (UInt32.ofNat pre.length)) 0 (update'.take level)
      (z₂.setNode x (some (zslCreateNode level score (some obj))))).bind _) = _
    rw [h₄, Option.bind_some, h₅, Option.bind_some, h₆]
    rfl
  · have hheightv : ∀ v, v ≠ x → z₆.height v = z.height v := by
      intro v hv
      rw [hheight₆, hheight₅, Function.update_of_ne hv]
    have hheightx : z₆.height x = level := by rw [hheight₆, hheight₅, Function.update_self]
    have hlinkto : ∀ j behind, linkTo { z₆ with length := z₆.length + 1 } j behind =
        linkTo z₅ j behind := by
      intro j behind
      refine linkTo_congr (fun v _ => ?_)
      show decide (j < z₆.height v) = decide (j < z₅.height v)
      rw [hheight₆]
    constructor
    · show (z₆.header :: (pre ++ x :: post)).Nodup
      rw [hheader₆, hom.header]
      exact hom.nodup_more
    · show z₆.height z₆.header = _
      rw [hheader₆, hheader₅, hheightv _ (fun hx => hfresh₂ (by simp [hheader₂, hx])), h.headerHeight]
    · intro v hv
      show 0 < z₆.height v ∧ z₆.height v ≤ z₆.level
      rw [hlevel₆, hlevel₅]
      by_cases hvx : v = x
      · rw [hvx, hheightx]
        omega
      · have hmem : v ∈ pre ++ post := by
          simp only [List.mem_append, List.mem_cons, hvx, false_or] at hv ⊢
          exact hv
        have := h.height v hmem
        rw [hheightv v hvx]
        omega
    · show 0 < z₆.level
      rw [hlevel₆, hlevel₅]
      omega
    · show z₆.level ≤ _
      rw [hlevel₆, hlevel₅]
      omega
    · intro ahd w behind hids j hj hh
      rw [hlinkto]
      show z₆.lane j w = _
      rw [hlane₆]
      refine halmost.lanes j ?_ ahd w behind ?_ ?_
      · rw [← hlevel₆]
        exact hj
      · rw [← hids]
        exact congrArg (· :: _) hheader₆.symm
      · rw [← hheight₆]
        exact hh
    · intro j hj hj'
      show ∃ l, z₆.lane j z₆.header = some l ∧ _
      replace hj : newLevel ≤ j := by
        rw [← hlevel₅, ← hlevel₆]
        exact hj
      rw [hlane₆, hheader₆, hheader₅, ← hheader₂,
        hrest j hj z₂.header (fun hx => hfresh₂ (by simp [hx]))]
      exact hlinked₁.unused j hj hj'
    · intro ahd w behind hids
      exact hback₆ ahd w behind hids
    · exact htail₆
    · show z₆.length + 1 = _
      have hl : z₅.length = z.length := hf₅.length.trans hf₁.length
      have := h.length
      rw [hlength₆, hl, List.length_append, List.length_cons]
      rw [List.length_append] at this
      omega
  · exact hheader₆.trans hheader₅
  · exact hlevel₆.trans hlevel₅
  · exact hheight₆.trans hheight₅
  · show z₆.elem = _
    have helem₂ : z₂.elem = z.elem := hf₁.elem
    rw [helem₆, hf₅.elem, helem₃, helem₂]
    rfl

/-! ## Deletion -/

omit [LinearOrder σ] in
theorem LaneOk.congr {lane lane' : NodeId → Option ZskiplistLevel} (h : LaneOk z i ids lane)
    (heq : ∀ v ∈ z.header :: ids, lane' v = lane v) : LaneOk z i ids lane' := by
  intro ahd v behind hids hv
  rw [heq v (by rw [hids]; simp)]
  exact h ahd v behind hids hv

omit [LinearOrder σ] in
/-- The level is lowered to the highest one that is not empty, or to 1. -/
theorem lowerLevel_spec : ∀ (level : Nat), 0 < level →
    (∀ j, j < level → ∃ l, z.lane j z.header = some l) →
    ∃ k, lowerLevel z level = some k ∧ 0 < k ∧ k ≤ level ∧
      (∀ j, k ≤ j → j < level → ∃ l, z.lane j z.header = some l ∧ l.forward = none) ∧
      (k = 1 ∨ ∃ l, z.lane (k - 1) z.header = some l ∧ l.forward ≠ none) := by
  intro level
  induction level with
  | zero => intro h; omega
  | succ level ih =>
      intro _ hlanes
      unfold lowerLevel
      by_cases hone : level + 1 > 1
      · obtain ⟨l, hl⟩ := hlanes level (by omega)
        rw [if_pos hone, show z.lev z.header level = some l from hl]
        simp only
        split
        · next hnone =>
            obtain ⟨k, hk, hpos, hle, hempty, htop⟩ := ih (by omega) (fun j hj => hlanes j (by omega))
            refine ⟨k, hk, hpos, by omega, ?_, htop⟩
            intro j hj hj'
            by_cases hjl : j = level
            · exact ⟨l, by rw [hjl]; exact hl, hnone⟩
            · exact hempty j hj (by omega)
        · next hsome =>
            exact ⟨level + 1, rfl, by omega, Nat.le_refl _, fun j h₁ h₂ => by omega,
              Or.inr ⟨l, hl, hsome⟩⟩
      · rw [if_neg hone]
        exact ⟨level + 1, rfl, by omega, Nat.le_refl _, fun j h₁ h₂ => by omega,
          Or.inl (by omega)⟩

omit [LinearOrder σ] in
/-- Freeing a node is the only change. -/
theorem freeNode_spec (z : Zskiplist σ) (x : NodeId) :
    (∀ w, w ≠ x → (z.setNode x none).height w = z.height w) ∧
      (z.setNode x none).elem = Function.update z.elem x none ∧
      (∀ w, w ≠ x → (z.setNode x none).back w = z.back w) ∧
      ∀ j w, w ≠ x → (z.setNode x none).lane j w = z.lane j w := by
  refine ⟨?_, ?_, ?_, ?_⟩
  · intro w hw
    simp only [Zskiplist.height, Zskiplist.setNode, Function.update_of_ne hw]
  · funext w
    unfold Zskiplist.elem Zskiplist.setNode
    by_cases hw : w = x
    · simp only [hw, Function.update_self, Option.map_none]
    · simp only [Function.update_of_ne hw]
  · intro w hw
    simp only [Zskiplist.back, Zskiplist.setNode, Function.update_of_ne hw]
  · intro j w hw
    simp only [Zskiplist.lane, Zskiplist.lev, Zskiplist.setNode, Function.update_of_ne hw]

omit [LinearOrder σ] in
theorem unlinkLane_other {lane : NodeId → Option ZskiplistLevel} (h : w ≠ y) :
    unlinkLane x y lane w = lane w := by
  unfold unlinkLane
  cases lane y with
  | none => rfl
  | some l =>
      simp only
      by_cases hfwd : l.forward = some x
      · rw [if_pos hfwd]
        cases lane x with
        | none => rfl
        | some lx => exact Function.update_of_ne h _ _
      · rw [if_neg hfwd]
        exact Function.update_of_ne h _ _

omit [LinearOrder σ] in
/-- The loop of `zslDeleteNode` takes the node out of every lane. -/
theorem unlinkLoop_spec (h : Linked z (pre ++ x :: post)) {update : List (NodeId × UInt32)}
    (hlen : update.length = z.level)
    (hlast : ∀ j p, update[j]? = some p → IsLast z j (z.header :: pre) p.1 p.2)
    (hom : OneMore z' z x pre post) :
    ∃ z₁, forLevels (unlinkLevel x) 0 (update.map Prod.fst) z = some z₁ ∧ Frame z z₁ ∧
      (∀ j, j < z.level → LaneOk z' j (pre ++ post) (z₁.lane j)) ∧
      (∀ j, j < z.level → z₁.lane j x = z.lane j x) ∧
      ∀ j, z.level ≤ j → z₁.lane j = z.lane j := by
  have hlane : ∀ j p, update[j]? = some p → j < z.height p.1 ∧
      ∀ l, z.lane j p.1 = some l → l.forward = some x → j < z.height x := by
    intro j p hj
    obtain ⟨ahd, low, hnodes, hh, _⟩ := hlast j p hj
    refine ⟨hh, ?_⟩
    intro l hl hfwd
    have hjl := (List.getElem?_eq_some_iff.mp hj).1
    rw [h.links ahd p.1 (low ++ x :: post)
      (by rw [← List.cons_append, hnodes, List.append_assoc]; rfl) j (by omega) hh] at hl
    cases hl
    obtain ⟨_, _, _, _, htall, _⟩ := ahead_some hfwd
    simpa [Zskiplist.tall] using htall
  obtain ⟨z₁, heq, hframe, hout, hin⟩ := @forLevels_spec _ z _ (unlinkLevel x)
    (fun j y lane => j < z.height y ∧
      ∀ l, lane y = some l → l.forward = some x → j < z.height x)
    (fun _ y lane => unlinkLane x y lane)
    (fun j y z₂ hf hP => unlinkLevel_spec (by rw [hf.height]; exact hP.1)
      (by rw [hf.height]; exact hP.2))
    (update.map Prod.fst) 0 z (Frame.refl z)
    (by
      intro k y hk
      rw [List.getElem?_map] at hk
      obtain ⟨p, hp, rfl⟩ := Option.map_eq_some_iff.mp hk
      rw [Nat.zero_add]
      exact hlane k p hp)
  have hat : ∀ j, j < z.level → ∃ p, update[j]? = some p ∧
      z₁.lane j = unlinkLane x p.1 (z.lane j) := by
    intro j hj
    obtain ⟨p, hp⟩ : ∃ p, update[j]? = some p := ⟨_, List.getElem?_eq_getElem (by omega)⟩
    refine ⟨p, hp, ?_⟩
    have := hin j p.1 (by rw [List.getElem?_map, hp]; rfl)
    rwa [Nat.zero_add] at this
  refine ⟨z₁, heq, hframe, ?_, ?_, ?_⟩
  · intro j hj
    obtain ⟨p, hp, hl⟩ := hat j hj
    rw [hl]
    exact unlinkLane_ok hom (h.laneOk hj) (hlast j p hp)
  · intro j hj
    obtain ⟨p, hp, hl⟩ := hat j hj
    obtain ⟨ahd, low, hnodes, _⟩ := hlast j p hp
    have hpx : x ≠ p.1 := by
      refine (hom.ne ?_).symm
      rw [← hom.header, ← List.cons_append, hnodes]
      simp
    rw [hl, unlinkLane_other hpx]
  · intro j hj
    refine hout j (Or.inr ?_)
    rw [List.length_map]
    omega

omit [LinearOrder σ] in
/-- The end of the node behind a node that goes, or the tail. -/
theorem unlinkBackward_spec (h : Linked z (pre ++ x :: post)) {z₁ : Zskiplist σ} (hf : Frame z z₁) :
    ∃ z₂, unlinkBackward z₁ pre.getLast? (linkTo z 0 post).forward = some z₂ ∧
      z₂.header = z.header ∧ z₂.level = z.level ∧ z₂.length = z.length ∧ z₂.height = z.height ∧
      z₂.elem = z.elem ∧ z₂.lane = z₁.lane ∧ z₂.tail = (pre ++ post).getLast? ∧
      ∀ ahd w behind, pre ++ post = ahd ++ w :: behind → z₂.back w = some ahd.getLast? := by
  cases post with
  | nil =>
      refine ⟨{ z₁ with tail := pre.getLast? }, rfl, hf.header, hf.level, hf.length, hf.height,
        hf.elem, rfl, by rw [List.append_nil], ?_⟩
      intro ahd w behind heq
      show z₁.back w = _
      rw [hf.back]
      rw [List.append_nil] at heq
      exact h.backward ahd w (behind ++ [x]) (by rw [heq]; simp)
  | cons next post =>
      have hnextpos : 0 < z.height next := (h.height next (by simp)).1
      obtain ⟨n, hn⟩ := node_of_height (z := z₁) (x := next) (by rw [hf.height]; exact hnextpos)
      obtain ⟨z₂, h₂, hs₂⟩ := setBackward_spec hn pre.getLast?
      rw [linkTo_cons_tall (by simpa [Zskiplist.tall] using hnextpos)]
      refine ⟨z₂, h₂, hs₂.header.trans hf.header, hs₂.level.trans hf.level,
        hs₂.length.trans hf.length, hs₂.height.trans hf.height, hs₂.elem.trans hf.elem, hs₂.lane,
        ?_, ?_⟩
      · rw [hs₂.tail, hf.tail, h.tail]
        simp [List.getLast?_append, List.getLast?_cons_cons]
      · have hnd : (pre ++ x :: next :: post).Nodup := (List.nodup_cons.mp h.nodup).2
        intro ahd w behind heq
        rw [hs₂.back, hf.back]
        rcases append_cons_cases heq with ⟨mid, hA, hB⟩ | ⟨hA, rfl, hB⟩ | ⟨mid, hA, hB⟩
        · have hne : w ≠ next := by
            rintro rfl
            rw [hA] at hnd
            simp [List.nodup_append] at hnd
          rw [Function.update_of_ne hne]
          exact h.backward ahd w (mid ++ x :: next :: post) (by rw [hA]; simp)
        · rw [Function.update_self, hA]
        · have hne : w ≠ next := by
            rintro rfl
            rw [hB] at hnd
            simp [List.nodup_append] at hnd
          rw [Function.update_of_ne hne,
            h.backward (pre ++ x :: next :: mid) w behind (by rw [hB]; simp), hA]
          simp [List.getLast?_append, List.getLast?_cons_cons]

/-- A list that a node has been taken out of and freed, with its level lowered. -/
structure Removed (z zf : Zskiplist σ) (x : NodeId) (pre post : List NodeId) : Prop where
  oneMore : OneMore zf z x pre post
  lanes : ∀ j, j < z.level → LaneOk zf j (pre ++ post) (zf.lane j)
  above : ∀ j, z.level ≤ j → zf.lane j z.header = z.lane j z.header
  levelPos : 0 < zf.level
  levelLe : zf.level ≤ z.level
  empty : ∀ j, zf.level ≤ j → j < z.level →
    ∃ l, zf.lane j z.header = some l ∧ l.forward = none
  top : zf.level = 1 ∨ ∃ l, zf.lane (zf.level - 1) z.header = some l ∧ l.forward ≠ none
  back : ∀ ahd w behind, pre ++ post = ahd ++ w :: behind → zf.back w = some ahd.getLast?
  tail : zf.tail = (pre ++ post).getLast?
  length : zf.length = (pre ++ post).length

omit [LinearOrder σ] in
/-- What the header says on a level is what the list has there. -/
theorem Removed.head {zf : Zskiplist σ} (hr : Removed z zf x pre post)
    (h : Linked z (pre ++ x :: post)) (hj : j < z.level) :
    zf.lane j z.header = some (linkTo zf j (pre ++ post)) := by
  have hhead := hr.oneMore.header
  have hmax := h.levelLe
  refine hr.lanes j hj [] z.header (pre ++ post) (by rw [← hhead]; rfl) ?_
  rw [← hr.oneMore.heights z.header (hr.oneMore.ne (by rw [hhead]; simp)), h.headerHeight]
  omega

omit [LinearOrder σ] in
/-- No node is taller than the level says. -/
theorem Removed.height_le {zf : Zskiplist σ} (hr : Removed z zf x pre post)
    (h : Linked z (pre ++ x :: post)) {v : NodeId} (hv : v ∈ pre ++ post) :
    zf.height v ≤ zf.level := by
  have hvx : v ≠ x := hr.oneMore.ne (List.mem_cons_of_mem _ hv)
  have hold := (h.height v (by
    simp only [List.mem_append, List.mem_cons] at hv ⊢
    tauto)).2
  by_contra hgt
  rw [hr.oneMore.heights v hvx] at hold
  obtain ⟨l, hl, hnone⟩ := hr.empty zf.level (Nat.le_refl _) (by omega)
  rw [hr.head h (by omega)] at hl
  cases hl
  have hlow := (ahead_none hnone).1 v hv
  simp only [Zskiplist.tall, decide_eq_false_iff_not] at hlow
  omega

omit [LinearOrder σ] in
theorem Removed.linked {zf : Zskiplist σ} (hr : Removed z zf x pre post)
    (h : Linked z (pre ++ x :: post)) : Linked zf (pre ++ post) where
  nodup := hr.oneMore.nodup
  headerHeight := by
    have hhead := hr.oneMore.header
    rw [← hhead, ← hr.oneMore.heights z.header (hr.oneMore.ne (by rw [hhead]; simp)),
      h.headerHeight]
  height := by
    intro v hv
    refine ⟨?_, hr.height_le h hv⟩
    rw [← hr.oneMore.heights v (hr.oneMore.ne (List.mem_cons_of_mem _ hv))]
    refine (h.height v ?_).1
    simp only [List.mem_append, List.mem_cons] at hv ⊢
    tauto
  levelPos := hr.levelPos
  levelLe := Nat.le_trans hr.levelLe h.levelLe
  links := fun ahd w behind hids j hj hh =>
    hr.lanes j (Nat.lt_of_lt_of_le hj hr.levelLe) ahd w behind hids hh
  unused := by
    intro j hj hj'
    rw [← hr.oneMore.header]
    by_cases hjz : j < z.level
    · exact hr.empty j hj hjz
    · rw [hr.above j (by omega)]
      exact h.unused j (by omega) hj'
  backward := hr.back
  tail := hr.tail
  length := hr.length

omit [LinearOrder σ] in
/-- The level is the height of a node, or 1. -/
theorem Removed.tallest {zf : Zskiplist σ} (hr : Removed z zf x pre post)
    (h : Linked z (pre ++ x :: post)) :
    zf.level = 1 ∨ ∃ v ∈ pre ++ post, zf.height v = zf.level := by
  have hpos := hr.levelPos
  have hle := hr.levelLe
  rcases hr.top with hone | ⟨l, hl, hne⟩
  · exact Or.inl hone
  · obtain ⟨v, hv⟩ := Option.ne_none_iff_exists'.mp hne
    rw [hr.head h (by omega)] at hl
    cases hl
    obtain ⟨low, rest, heq, _, htall, _⟩ := ahead_some hv
    have hmem : v ∈ pre ++ post := by rw [heq]; simp
    have hup := hr.height_le h hmem
    simp only [Zskiplist.tall, decide_eq_true_eq] at htall
    exact Or.inr ⟨v, hmem, by omega⟩

omit [LinearOrder σ] in
/-- **`zslDeleteNode`** and freeing the node take it out of the list. -/
theorem zslDeleteNode_spec (h : Linked z (pre ++ x :: post))
    {update : List (NodeId × UInt32)} (hlen : update.length = z.level)
    (hlast : ∀ j p, update[j]? = some p → IsLast z j (z.header :: pre) p.1 p.2) :
    ∃ z', zslDeleteNode z x (update.map Prod.fst) = some z' ∧
      Removed z (z'.setNode x none) x pre post ∧ z'.elem = z.elem := by
  have hperm : List.Perm (z.header :: pre ++ x :: post) (x :: (z.header :: pre ++ post)) :=
    List.perm_middle
  obtain ⟨hxfresh, hnd⟩ := List.nodup_cons.mp (hperm.nodup_iff.mp h.nodup)
  have hxpos : 0 < z.height x := (h.height x (by simp)).1
  have hhx : z.header ≠ x := fun hx => hxfresh (by simp [← hx])
  -- the list as it will be, for the heights
  have hom : OneMore (z.setNode x none) z x pre post :=
    ⟨rfl, hxfresh, fun v hv => ((freeNode_spec z x).1 v hv).symm, hnd⟩
  obtain ⟨z₁, hloop, hf₁, hlanes, hxlane, habove⟩ := unlinkLoop_spec h hlen hlast hom
  obtain ⟨n, hn⟩ := node_of_height (z := z₁) (x := x) (by rw [hf₁.height]; exact hxpos)
  have hnback : n.backward = pre.getLast? := by
    have hb : z₁.back x = some n.backward := by rw [Zskiplist.back, hn]; rfl
    rw [hf₁.back, h.backward pre x post rfl] at hb
    exact (Option.some.inj hb).symm
  have hx0 : z₁.lev x 0 = some (linkTo z 0 post) := by
    show z₁.lane 0 x = _
    rw [hxlane 0 h.levelPos]
    exact h.links (z.header :: pre) x post (by simp) 0 h.levelPos hxpos
  obtain ⟨z₂, h₂, hheader₂, hlevel₂, hlength₂, hheight₂, helem₂, hlane₂, htail₂, hback₂⟩ :=
    unlinkBackward_spec h hf₁
  obtain ⟨k, hk, hkpos, hkle, hempty, htop⟩ := lowerLevel_spec (z := z₂) z₂.level
    (by rw [hlevel₂]; exact h.levelPos)
    (by
      intro j hj
      have := h.levelLe
      refine lane_of_lt ?_
      rw [hheight₂, hheader₂, h.headerHeight]
      omega)
  rw [hheader₂] at hempty htop
  rw [hlevel₂] at hempty hkle
  obtain ⟨z', hz'⟩ : ∃ z', z' = ({ z₂ with level := k, length := z₂.length - 1 } : Zskiplist σ) :=
    ⟨_, rfl⟩
  obtain ⟨hfheight, _, hfback, hflane⟩ := freeNode_spec z' x
  have hlane' : ∀ i v, v ≠ x → (z'.setNode x none).lane i v = z₁.lane i v := by
    intro i v hv
    rw [hflane i v hv, hz', ← hlane₂]
    rfl
  have hheight' : ∀ v, v ≠ x → (z'.setNode x none).height v = z.height v := by
    intro v hv
    rw [hfheight v hv, hz', ← hheight₂]
    rfl
  have hheader' : (z'.setNode x none).header = z.header := by rw [hz']; exact hheader₂
  refine ⟨z', ?_, ⟨⟨hheader'.symm, by rw [hheader']; exact hxfresh,
    fun v hv => (hheight' v hv).symm, by rw [hheader']; exact hnd⟩, ?_, ?_, ?_, ?_, ?_, ?_, ?_, ?_,
    ?_⟩, ?_⟩
  · unfold zslDeleteNode
    rw [hloop, Option.bind_some, hn, hx0]
    simp only
    rw [hnback, h₂, Option.bind_some, hk, hz']
    rfl
  · intro i hi ahd w behind hids hw
    rw [hheader'] at hids
    have hwx : w ≠ x := fun hx => hxfresh (by rw [List.cons_append, hids, hx]; simp)
    rw [hlane' i w hwx, hlanes i hi ahd w behind hids (by
      rw [(freeNode_spec z x).1 w hwx, ← hheight' w hwx]
      exact hw)]
    congr 1
    refine linkTo_congr (fun v hv => ?_)
    have hvx : v ≠ x := fun hx => hxfresh (by rw [List.cons_append, hids, ← hx]; simp [hv])
    unfold Zskiplist.tall
    rw [(freeNode_spec z x).1 v hvx, hheight' v hvx]
  · intro i hi
    rw [hlane' i _ hhx, habove i hi]
  · show 0 < z'.level
    rw [hz']
    exact hkpos
  · show z'.level ≤ _
    rw [hz']
    exact hkle
  · intro i hi hi'
    replace hi : k ≤ i := by
      have : z'.level ≤ i := hi
      rwa [hz'] at this
    rw [hlane' i _ hhx, ← hlane₂]
    exact hempty i hi hi'
  · have hlev : (z'.setNode x none).level = k := by
      show z'.level = k
      rw [hz']
    rw [hlev, hlane' _ _ hhx, ← hlane₂]
    exact htop
  · intro ahd w behind hids
    have hwx : w ≠ x := fun hx => hxfresh (by rw [List.cons_append, hids, hx]; simp)
    rw [hfback w hwx, hz']
    exact hback₂ ahd w behind hids
  · show z'.tail = _
    rw [hz']
    exact htail₂
  · show z'.length = _
    have := h.length
    rw [hz']
    simp only [hlength₂, this, List.length_append, List.length_cons]
    omega
  · rw [hz', ← helem₂]
    rfl

end Skiplist

end RedisCore
