/-
# `RedisCore.Zset.Runs` — the skip list as a sorted set (t_zset.c)

The key of an element is its score and then its bytes.  A list represents a set of keys
when its nodes, in order, have these keys in strictly increasing order and all links are
right.  Insertion and deletion find the place of a key by comparing, and change the set
as they should; a run from the empty list therefore always represents what was inserted
and not deleted since.
-/
import RedisCore.Zset.Edit

namespace RedisCore

namespace Skiplist

open Lanes

variable {σ : Type} [LinearOrder σ] {z z' : Zskiplist σ} {x y : NodeId}
  {ids pre post : List NodeId} {score : σ} {obj : StringObj}

/-- The key of an element: its score, then its bytes in the order of `memcmp`. -/
def keyOf (score : σ) (obj : StringObj) : σ ×ₗ List Nat := toLex (score, byteValues obj.val.bytes)

/-- The key of a node. -/
def Zskiplist.key (z : Zskiplist σ) (w : NodeId) : Option (σ ×ₗ List Nat) :=
  (z.elem w).bind (fun e => e.1.map (keyOf e.2))

/-- The test of the search compares keys. -/
theorem before_iff {n : ZskiplistNode σ} {o : StringObj} (ho : n.obj = some o) :
    n.before score obj = true ↔ keyOf n.score o < keyOf score obj := by
  rw [ZskiplistNode.before, ho, keyOf, keyOf, Prod.Lex.toLex_lt_toLex]
  simp only [Bool.or_eq_true, decide_eq_true_eq, Bool.and_eq_true, Option.any_some,
    (compareStringObjects_spec o.short obj.short o.ok obj.ok).1]

/-- The test of `zslDelete` compares keys as well. -/
theorem found_iff {n : ZskiplistNode σ} {o : StringObj} (ho : n.obj = some o) :
    (score = n.score && n.obj.any (fun o => equalStringObjects o.val obj.val)) = true ↔
      keyOf n.score o = keyOf score obj := by
  rw [ho, keyOf, keyOf, toLex_inj, Prod.mk.injEq, byteValues_inj]
  simp only [Bool.and_eq_true, decide_eq_true_eq, Option.any_some,
    equalStringObjects_iff o.short obj.short o.ok obj.ok]
  constructor
  · rintro ⟨rfl, h⟩
    exact ⟨rfl, h⟩
  · rintro ⟨rfl, h⟩
    exact ⟨rfl, h⟩

/-- The nodes of the list have these keys, in increasing order. -/
structure Ordered (z : Zskiplist σ) (ids : List NodeId) (keys : List (σ ×ₗ List Nat)) : Prop where
  nodes : ids.map z.key = keys.map some
  sorted : keys.Pairwise (· < ·)

/-- The list represents the keys. -/
structure Ok (z : Zskiplist σ) (ids : List NodeId) (keys : List (σ ×ₗ List Nat)) : Prop where
  linked : Linked z ids
  ordered : Ordered z ids keys
  tallest : z.level = 1 ∨ ∃ y ∈ ids, z.height y = z.level

omit [LinearOrder σ] in
theorem key_node {k : σ ×ₗ List Nat} (h : z.key y = some k) : ∃ n o, z.node y = some n ∧ n.obj = some o ∧
    keyOf n.score o = k := by
  unfold Zskiplist.key Zskiplist.elem at h
  cases hn : z.node y with
  | none => simp [hn] at h
  | some n =>
      cases ho : n.obj with
      | none => simp [hn, ho] at h
      | some o =>
          simp only [hn, Option.map_some, Option.bind_some, ho, Option.some.injEq] at h
          exact ⟨n, o, rfl, ho, h⟩

/-- A list falls into what passes a test and the rest, where what passes stands in front. -/
theorem split_of_pairwise {α : Type} {p : α → Bool} : ∀ {xs : List α},
    xs.Pairwise (fun a b => p b = true → p a = true) → ∃ lower upper, xs = lower ++ upper ∧
      (∀ a ∈ lower, p a = true) ∧ ∀ a ∈ upper, p a = false := by
  intro xs
  induction xs with
  | nil => intro _; exact ⟨[], [], rfl, by simp, by simp⟩
  | cons x xs ih =>
      intro h
      rw [List.pairwise_cons] at h
      cases hx : p x with
      | true =>
          obtain ⟨lower, upper, rfl, hl, hu⟩ := ih h.2
          refine ⟨x :: lower, upper, rfl, ?_, hu⟩
          intro a ha
          rcases List.mem_cons.mp ha with rfl | ha
          · exact hx
          · exact hl a ha
      | false =>
          refine ⟨[], x :: xs, rfl, by simp, ?_⟩
          intro a ha
          rcases List.mem_cons.mp ha with rfl | ha
          · exact hx
          · exact Bool.eq_false_iff.mpr (fun hpa => by simp [h.1 a ha hpa] at hx)

/-- A sorted list falls into what is below a bound and the rest. -/
theorem split_sorted {κ : Type} [LinearOrder κ] (bound : κ) {keys : List κ}
    (h : keys.Pairwise (· < ·)) : ∃ lower upper, keys = lower ++ upper ∧ (∀ k ∈ lower, k < bound) ∧
      ∀ k ∈ upper, bound ≤ k := by
  obtain ⟨lower, upper, hkeys, hl, hu⟩ := @split_of_pairwise _ (fun k => decide (k < bound)) keys
    (h.imp (fun hab hb => by simpa using lt_trans hab (by simpa using hb)))
  exact ⟨lower, upper, hkeys, fun k hk => by simpa using hl k hk, fun k hk => by simpa using hu k hk⟩

/-- The place of a key in the list. -/
theorem Ok.place {keys : List (σ ×ₗ List Nat)} (h : Ok z ids keys) (score : σ) (obj : StringObj) :
    ∃ pre post lower upper, ids = pre ++ post ∧ keys = lower ++ upper ∧
      pre.map z.key = lower.map some ∧ post.map z.key = upper.map some ∧
      (∀ k ∈ lower, k < keyOf score obj) ∧ (∀ k ∈ upper, keyOf score obj ≤ k) ∧
      Place z score obj pre post := by
  obtain ⟨lower, upper, hkeys, hl, hu⟩ := split_sorted (keyOf score obj) h.ordered.sorted
  have hmap := h.ordered.nodes
  rw [hkeys, List.map_append] at hmap
  obtain ⟨pre, post, hids, hpre, hpost⟩ := List.map_eq_append_iff.mp hmap
  refine ⟨pre, post, lower, upper, hids, hkeys, hpre, hpost, hl, hu, ⟨?_, ?_⟩⟩
  · intro y hy
    have hmem : z.key y ∈ pre.map z.key := List.mem_map_of_mem hy
    rw [hpre] at hmem
    obtain ⟨k, hk, hky⟩ := List.mem_map.mp hmem
    obtain ⟨n, o, hn, ho, hkey⟩ := key_node hky.symm
    exact ⟨n, hn, (before_iff ho).mpr (by rw [hkey]; exact hl k hk)⟩
  · intro y hy
    have hmem : z.key y ∈ post.map z.key := List.mem_map_of_mem hy
    rw [hpost] at hmem
    obtain ⟨k, hk, hky⟩ := List.mem_map.mp hmem
    obtain ⟨n, o, hn, ho, hkey⟩ := key_node hky.symm
    refine ⟨n, hn, Bool.eq_false_iff.mpr (fun hb => ?_)⟩
    rw [before_iff ho, hkey] at hb
    exact absurd (hu k hk) (not_le_of_gt hb)

/-! ## One operation -/

omit [LinearOrder σ] in
/-- The lowest level goes from a node to the next. -/
theorem linkTo_bottom (h : ∀ v ∈ post, 0 < z.height v) :
    (linkTo z 0 post).forward = post.head? := by
  cases post with
  | nil => rfl
  | cons y post =>
      rw [linkTo_cons_tall]
      · rfl
      · simpa [Zskiplist.tall] using h y (by simp)

omit [LinearOrder σ] in
theorem key_of_elem (h : z'.elem y = z.elem y) : z'.key y = z.key y := by
  unfold Zskiplist.key
  rw [h]

/-- **`zslInsert`** of an element that is not there puts its key at its place. -/
theorem zslInsert_ok {keys : List (σ ×ₗ List Nat)} (h : Ok z ids keys)
    (hnew : keyOf score obj ∉ keys) {level : Nat} (hpos : 0 < level)
    (hmax : level ≤ ZSKIPLIST_MAXLEVEL) (hfresh : z.node x = none) :
    ∃ z' pre post lower upper, zslInsert z score obj level x = some z' ∧ ids = pre ++ post ∧
      keys = lower ++ upper ∧ post.length = upper.length ∧ (∀ k ∈ upper, keyOf score obj < k) ∧
      Ok z' (pre ++ x :: post) (lower ++ keyOf score obj :: upper) ∧
      z'.level = (if level > z.level then level else z.level) ∧
      z'.height = Function.update z.height x level ∧
      z'.elem = Function.update z.elem x (some (some obj, score)) := by
  obtain ⟨pre, post, lower, upper, rfl, rfl, hpre, hpost, hl, hu, hp⟩ := h.place score obj
  obtain ⟨z', heq, hlinked, _, hlevel, hheight, helem⟩ :=
    zslInsert_linked h.linked hp hpos hmax hfresh
  have hne : ∀ v ∈ pre ++ post, v ≠ x := by
    rintro v hv rfl
    obtain ⟨n, hn⟩ := node_of_height (h.linked.height v hv).1
    rw [hfresh] at hn
    exact absurd hn (by simp)
  have hkey : ∀ v ∈ pre ++ post, z'.key v = z.key v := fun v hv =>
    key_of_elem (by rw [helem, Function.update_of_ne (hne v hv)])
  have hkeyx : z'.key x = some (keyOf score obj) := by
    rw [Zskiplist.key, helem, Function.update_self]
    rfl
  have hgt : ∀ k ∈ upper, keyOf score obj < k := by
    intro k hk
    refine lt_of_le_of_ne (hu k hk) ?_
    rintro rfl
    exact hnew (by simp [hk])
  have hlen : post.length = upper.length := by
    have := congrArg List.length hpost
    simpa using this
  refine ⟨z', pre, post, lower, upper, heq, rfl, rfl, hlen, hgt, ⟨hlinked, ⟨?_, ?_⟩, ?_⟩, hlevel,
    hheight, helem⟩
  · rw [List.map_append, List.map_cons, hkeyx, List.map_append, List.map_cons, ← hpre, ← hpost,
      List.map_congr_left (fun v hv => hkey v (by simp [hv])),
      List.map_congr_left (l := post) (fun v hv => hkey v (by simp [hv]))]
  · have hs := h.ordered.sorted
    rw [List.pairwise_append] at hs ⊢
    refine ⟨hs.1, List.pairwise_cons.mpr ⟨hgt, hs.2.1⟩, ?_⟩
    intro a ha k hk
    rcases List.mem_cons.mp hk with rfl | hk
    · exact hl a ha
    · exact hs.2.2 a ha k hk
  · rw [hlevel, hheight]
    by_cases hraise : level > z.level
    · rw [if_pos hraise]
      exact Or.inr ⟨x, by simp, Function.update_self ..⟩
    · rw [if_neg hraise]
      rcases h.tallest with hone | ⟨v, hv, hvl⟩
      · exact Or.inl hone
      · refine Or.inr ⟨v, ?_, by rw [Function.update_of_ne (hne v hv)]; exact hvl⟩
        simp only [List.mem_append, List.mem_cons] at hv ⊢
        tauto

/-- **`zslDelete`** removes the key if it is there, and says so. -/
theorem zslDelete_ok {keys : List (σ ×ₗ List Nat)} (h : Ok z ids keys) (score : σ)
    (obj : StringObj) :
    ∃ z' ids' keys', zslDelete z score obj =
        some (z', decide (keyOf score obj ∈ keys)) ∧ Ok z' ids' keys' ∧
      ∀ k, k ∈ keys' ↔ k ≠ keyOf score obj ∧ k ∈ keys := by
  obtain ⟨pre, post, lower, upper, rfl, rfl, hpre, hpost, hl, hu, hp⟩ := h.place score obj
  obtain ⟨update, hsearch, hulen, hulast⟩ :=
    search_spec h.linked hp z.level z.header 0 (Nat.le_refl _) (Or.inr ⟨rfl, rfl⟩)
  have hlpos := h.linked.levelPos
  obtain ⟨⟨y, rank⟩, rest, rfl⟩ : ∃ p rest, update = p :: rest := by
    cases update with
    | nil => simp at hulen; omega
    | cons p rest => exact ⟨p, rest, rfl⟩
  obtain ⟨ahd, low, hnodes, _, _, _, hlane⟩ := lane_last (h.linked.laneOk hlpos) (hulast 0 _ rfl)
  have hlow : low = [] := by
    obtain ⟨hlast, _⟩ := (hulast 0 (y, rank) rfl).bottom h.linked (fun v hv => by simp [hv])
    rw [hnodes] at hlast
    cases low with
    | nil => rfl
    | cons v low =>
        exfalso
        have hnd : (z.header :: pre).Nodup := by
          have := h.linked.nodup
          rw [← List.cons_append] at this
          exact (List.nodup_append.mp this).1
        rw [hnodes, List.nodup_append] at hnd
        rw [List.getLast?_append, List.getLast?_cons_cons] at hlast
        have hmem : y ∈ v :: low := by
          cases hg : (v :: low).getLast? with
          | none => simp at hg
          | some u =>
              rw [hg] at hlast
              cases hlast
              exact List.mem_of_getLast? hg
        exact (List.nodup_cons.mp hnd.2.1).1 hmem
  subst hlow
  have hfwd : (linkTo z 0 post).forward = post.head? :=
    linkTo_bottom (fun v hv => (h.linked.height v (by simp [hv])).1)
  have hlev : ∃ span, z.lev y 0 = some ⟨post.head?, span⟩ := ⟨_, by rw [← hfwd]; exact hlane⟩
  obtain ⟨span, hlev⟩ := hlev
  have hkl : keyOf score obj ∉ lower := fun hk => absurd (hl _ hk) (lt_irrefl _)
  -- nothing changes where the key is not found
  have hstay : keyOf score obj ∉ upper →
      ∀ k, k ∈ lower ++ upper ↔ k ≠ keyOf score obj ∧ k ∈ lower ++ upper := by
    intro hku k
    constructor
    · intro hk
      refine ⟨?_, hk⟩
      rintro rfl
      rcases List.mem_append.mp hk with hk | hk
      · exact hkl hk
      · exact hku hk
    · exact fun hk => hk.2
  unfold zslDelete
  rw [hsearch]
  simp only
  rw [hlev]
  cases post with
  | nil =>
      have hupper : upper = [] := by simpa using hpost.symm
      subst hupper
      refine ⟨z, pre ++ [], lower ++ [], ?_, h, hstay (by simp)⟩
      simp [hkl]
  | cons x post =>
      cases upper with
      | nil => simp at hpost
      | cons k₀ upper =>
          rw [List.map_cons, List.map_cons] at hpost
          obtain ⟨hkx, hrest⟩ := List.cons.inj hpost
          obtain ⟨n, o, hn, ho, hkey⟩ := key_node hkx
          simp only [List.head?_cons, hn]
          by_cases hfound : keyOf n.score o = keyOf score obj
          · -- the node is taken out
            rw [if_pos ((found_iff ho).mpr hfound)]
            obtain ⟨z', hdel, hrem, helem⟩ := zslDeleteNode_spec h.linked hulen hulast
            have hk₀ : k₀ = keyOf score obj := by rw [← hkey, hfound]
            subst hk₀
            have hkey' : ∀ v ∈ pre ++ post, (z'.setNode x none).key v = z.key v := by
              intro v hv
              have hvx : v ≠ x := hrem.oneMore.ne (List.mem_cons_of_mem _ hv)
              refine key_of_elem ?_
              rw [(freeNode_spec z' x).2.1, Function.update_of_ne hvx, helem]
            refine ⟨z'.setNode x none, pre ++ post, lower ++ upper, ?_,
              ⟨hrem.linked h.linked, ⟨?_, ?_⟩, hrem.tallest h.linked⟩, ?_⟩
            · rw [hdel]
              simp
            · rw [List.map_append, List.map_append, ← hpre, ← hrest,
                List.map_congr_left (fun v hv => hkey' v (by simp [hv])),
                List.map_congr_left (l := post) (fun v hv => hkey' v (by simp [hv]))]
            · have hs := h.ordered.sorted
              rw [List.pairwise_append] at hs ⊢
              exact ⟨hs.1, (List.pairwise_cons.mp hs.2.1).2,
                fun a ha k hk => hs.2.2 a ha k (List.mem_cons_of_mem _ hk)⟩
            · have hs := h.ordered.sorted
              rw [List.pairwise_append] at hs
              intro k
              simp only [List.mem_append, List.mem_cons]
              constructor
              · rintro (hk | hk)
                · exact ⟨ne_of_lt (hl k hk), Or.inl hk⟩
                · exact ⟨ne_of_gt ((List.pairwise_cons.mp hs.2.1).1 k hk), Or.inr (Or.inr hk)⟩
              · rintro ⟨hne, hk | hk | hk⟩
                · exact Or.inl hk
                · exact absurd hk hne
                · exact Or.inr hk
          · rw [if_neg (fun hf => hfound ((found_iff ho).mp hf))]
            have hnot : keyOf score obj ∉ k₀ :: upper := by
              have hs := h.ordered.sorted
              rw [List.pairwise_append] at hs
              have hlt : keyOf score obj < k₀ :=
                lt_of_le_of_ne (hu k₀ (by simp)) (fun heq => hfound (by rw [hkey, heq]))
              intro hk
              rcases List.mem_cons.mp hk with hk | hk
              · exact absurd hk (ne_of_lt hlt)
              · exact absurd (lt_trans hlt ((List.pairwise_cons.mp hs.2.1).1 _ hk)) (lt_irrefl _)
            refine ⟨z, pre ++ x :: post, lower ++ k₀ :: upper, ?_, h, hstay hnot⟩
            rw [show decide (keyOf score obj ∈ lower ++ k₀ :: upper) = false by
              simp only [decide_eq_false_iff_not, List.mem_append]
              tauto]

/-! ## What a list shows -/

/-- The nodes behind `x` on a level, by following `forward` for so many steps. -/
def Zskiplist.walk (z : Zskiplist σ) (i : Nat) : Nat → NodeId → List NodeId
  | 0, _ => []
  | steps + 1, x =>
      match (z.lev x i).bind ZskiplistLevel.forward with
      | none => []
      | some y => y :: z.walk i steps y

/-- The number of steps a link spans, in a list that starts with the header: from the
place `p` to the node it leads to, or to the end. -/
def spanOf (nodes : List NodeId) (p : Nat) : Option NodeId → Nat
  | some y => nodes.idxOf y - p
  | none => nodes.length - 1 - p

/-- What is to be seen of a list that holds these keys. -/
structure Shows (z : Zskiplist σ) (ids : List NodeId) (holds : σ ×ₗ List Nat → Prop) : Prop where
  bottom : z.walk 0 z.length z.header = ids
  ordered : ∃ keys : List (σ ×ₗ List Nat), ids.map z.key = keys.map some ∧
    keys.Pairwise (· < ·) ∧ ∀ k, k ∈ keys ↔ holds k
  lanes : ∀ i, i < z.level → z.walk i z.length z.header = ids.filter (z.tall i)
  spans : ∀ i, i < z.level → ∀ p y, (z.header :: ids)[p]? = some y → i < z.height y →
    ∃ l, z.lev y i = some l ∧ l.span = UInt32.ofNat (spanOf (z.header :: ids) p l.forward)
  backward : ∀ p y, ids[p]? = some y → z.back y = some (if p = 0 then none else ids[p - 1]?)
  tail : z.tail = ids.getLast?
  length : z.length = ids.length
  level : z.level = (ids.map z.height).foldr max 1

omit [LinearOrder σ] in
theorem walk_eq (h : Linked z ids) {i : Nat} (hi : i < z.level) : ∀ (steps : Nat)
    {ahd behind : List NodeId} {x : NodeId}, z.header :: ids = ahd ++ x :: behind →
    i < z.height x → behind.length ≤ steps → z.walk i steps x = behind.filter (z.tall i) := by
  intro steps
  induction steps with
  | zero =>
      intro ahd behind x _ _ hlen
      rw [List.length_eq_zero_iff.mp (Nat.le_zero.mp hlen)]
      rfl
  | succ steps ih =>
      intro ahd behind x hids hx hlen
      have hlev : z.lev x i = some (linkTo z i behind) := h.links ahd x behind hids i hi hx
      rw [Zskiplist.walk, hlev, Option.bind_some]
      cases hfwd : (linkTo z i behind).forward with
      | none =>
          have hlow := (ahead_none hfwd).1
          simp only
          exact (List.filter_eq_nil_iff.mpr (fun v hv => by simp [hlow v hv])).symm
      | some y =>
          obtain ⟨low, rest, rfl, hlow, htall, _⟩ := ahead_some hfwd
          have hnil : low.filter (z.tall i) = [] :=
            List.filter_eq_nil_iff.mpr (fun v hv => by simp [hlow v hv])
          simp only [List.filter_append, hnil, List.nil_append, List.filter_cons, htall, if_true]
          congr 1
          refine @ih (ahd ++ x :: low) _ _ (by rw [hids]; simp)
            (by simpa [Zskiplist.tall] using htall) ?_
          simp only [List.length_append, List.length_cons] at hlen
          omega

/-- The place of a node in a list without repetitions. -/
theorem idxOf_middle {ahd behind : List NodeId} {y : NodeId}
    (hnd : (ahd ++ y :: behind).Nodup) : (ahd ++ y :: behind).idxOf y = ahd.length := by
  have hnot : y ∉ ahd := by
    intro hy
    exact (List.nodup_append.mp hnd).2.2 y hy y (by simp) rfl
  rw [List.idxOf_append_of_notMem hnot]
  simp

omit [LinearOrder σ] in
/-- The steps to the next tall node are the steps to its place. -/
theorem spanOf_eq {ahd behind : List NodeId} {x : NodeId} {i : Nat}
    (hids : z.header :: ids = ahd ++ x :: behind) (hnd : (z.header :: ids).Nodup) :
    (ahead (z.tall i) behind).2 =
      spanOf (z.header :: ids) ahd.length (ahead (z.tall i) behind).1 := by
  cases hfwd : (ahead (z.tall i) behind).1 with
  | none =>
      rw [(ahead_none hfwd).2, spanOf, hids]
      simp only [List.length_append, List.length_cons]
      omega
  | some y =>
      obtain ⟨low, rest, rfl, _, _, hlen⟩ := ahead_some hfwd
      have heq : z.header :: ids = (ahd ++ x :: low) ++ y :: rest := by rw [hids]; simp
      rw [hlen, spanOf, heq, idxOf_middle (heq ▸ hnd)]
      simp only [List.length_append, List.length_cons]
      omega

theorem foldr_max_height (heights : List Nat) {level : Nat} (hle : ∀ n ∈ heights, n ≤ level)
    (hpos : 0 < level) (htop : level = 1 ∨ level ∈ heights) : level = heights.foldr max 1 := by
  have hup : heights.foldr max 1 ≤ level := by
    clear htop
    induction heights with
    | nil => exact hpos
    | cons n heights ih =>
        have h₁ := hle n (by simp)
        have h₂ := ih (fun m hm => hle m (by simp [hm]))
        simp only [List.foldr_cons]
        omega
  have hone : ∀ l : List Nat, 1 ≤ l.foldr max 1 := by
    intro l
    induction l with
    | nil => exact Nat.le_refl 1
    | cons n l ih => simp only [List.foldr_cons]; omega
  have hmem : ∀ (l : List Nat), level ∈ l → level ≤ l.foldr max 1 := by
    intro l
    induction l with
    | nil => intro h; exact absurd h (by simp)
    | cons n l ih =>
        intro h
        simp only [List.foldr_cons]
        rcases List.mem_cons.mp h with rfl | h
        · omega
        · have := ih h
          omega
  have h₁ := hone heights
  rcases htop with htop | htop
  · omega
  · have := hmem heights htop
    omega

/-- **A list that is right shows what it should.** -/
theorem Ok.shows {keys : List (σ ×ₗ List Nat)} (h : Ok z ids keys)
    {holds : σ ×ₗ List Nat → Prop} (hk : ∀ k, k ∈ keys ↔ holds k) : Shows z ids holds := by
  have hl := h.linked
  have hlane : ∀ i, i < z.level → z.walk i z.length z.header = ids.filter (z.tall i) := by
    intro i hi
    have hmax := hl.levelLe
    exact @walk_eq _ _ _ hl _ hi z.length [] _ _ rfl (by rw [hl.headerHeight]; omega)
      (Nat.le_of_eq hl.length.symm)
  refine ⟨?_, ⟨keys, h.ordered.nodes, h.ordered.sorted, hk⟩, hlane, ?_, ?_, hl.tail, hl.length, ?_⟩
  · rw [hlane 0 hl.levelPos, List.filter_eq_self]
    intro v hv
    simpa [Zskiplist.tall] using (hl.height v hv).1
  · intro i hi p y hp hy
    obtain ⟨hlt, hget⟩ := List.getElem?_eq_some_iff.mp hp
    have hids : z.header :: ids =
        (z.header :: ids).take p ++ y :: (z.header :: ids).drop (p + 1) := by
      rw [← hget, List.getElem_cons_drop, List.take_append_drop]
    have hlen : ((z.header :: ids).take p).length = p := by
      rw [List.length_take]
      omega
    refine ⟨_, hl.links _ y _ hids i hi hy, ?_⟩
    have hspan := spanOf_eq (i := i) hids hl.nodup
    rw [hlen] at hspan
    simp only [linkTo, hspan]
  · intro p y hp
    obtain ⟨hlt, hget⟩ := List.getElem?_eq_some_iff.mp hp
    have hids : ids = ids.take p ++ y :: ids.drop (p + 1) := by
      rw [← hget, List.getElem_cons_drop, List.take_append_drop]
    rw [hl.backward _ y _ hids]
    congr 1
    split
    · next h0 => rw [h0]; rfl
    · next h0 =>
        rw [List.getLast?_eq_getElem?, List.length_take, Nat.min_eq_left (by omega),
          List.getElem?_take_of_lt (by omega)]
  · refine foldr_max_height _ ?_ hl.levelPos ?_
    · intro n hn
      obtain ⟨v, hv, rfl⟩ := List.mem_map.mp hn
      exact (hl.height v hv).2
    · rcases h.tallest with hone | ⟨v, hv, hvl⟩
      · exact Or.inl hone
      · exact Or.inr (List.mem_map.mpr ⟨v, hv, hvl⟩)

/-! ## Every run -/

/-- An operation, with what `zslRandomLevel` and `zmalloc` return to it. -/
inductive Op (σ : Type) where
  | insert (score : σ) (obj : StringObj) (level : Nat) (x : NodeId)
  | delete (score : σ) (obj : StringObj)

/-- One operation, and what `zslDelete` returns. -/
def act (z : Zskiplist σ) : Op σ → Option (Zskiplist σ × Option Bool)
  | .insert score obj level x => (zslInsert z score obj level x).map (·, none)
  | .delete score obj => (zslDelete z score obj).map (fun p => (p.1, some p.2))

/-- The live elements after an operation, and what a deletion has to return. -/
def liveAfter (live : List (σ ×ₗ List Nat)) : Op σ → List (σ ×ₗ List Nat) × Option Bool
  | .insert score obj _ _ => (keyOf score obj :: live, none)
  | .delete score obj =>
      (live.filter (· ≠ keyOf score obj), some (decide (keyOf score obj ∈ live)))

/-- A run of the list. -/
def run : Zskiplist σ → List (Op σ) → Option (Zskiplist σ × List (Option Bool))
  | z, [] => some (z, [])
  | z, op :: ops =>
      match act z op with
      | none => none
      | some (z, r) => (run z ops).map (fun p => (p.1, r :: p.2))

/-- A run of the set. -/
def liveRun : List (σ ×ₗ List Nat) → List (Op σ) → List (σ ×ₗ List Nat) × List (Option Bool)
  | live, [] => (live, [])
  | live, op :: ops =>
      let next := liveAfter live op
      ((liveRun next.1 ops).1, next.2 :: (liveRun next.1 ops).2)

/-- How the operations are used: the level is one `zslRandomLevel` returns, the new node
is at a free address, and no pair is inserted while it is there. -/
def Op.Proper (z : Zskiplist σ) (live : List (σ ×ₗ List Nat)) : Op σ → Prop
  | .insert score obj level x =>
      0 < level ∧ level ≤ ZSKIPLIST_MAXLEVEL ∧ z.node x = none ∧ keyOf score obj ∉ live
  | .delete _ _ => True

/-- Every operation of the run is proper. -/
def ProperRun : Zskiplist σ → List (σ ×ₗ List Nat) → List (Op σ) → Prop
  | _, _, [] => True
  | z, live, op :: ops => op.Proper z live ∧
      ∀ z' r, act z op = some (z', r) → ProperRun z' (liveAfter live op).1 ops

theorem act_ok {keys live : List (σ ×ₗ List Nat)} (h : Ok z ids keys)
    (hk : ∀ k, k ∈ keys ↔ k ∈ live) {op : Op σ} (hp : op.Proper z live) :
    ∃ z' ids' keys', act z op = some (z', (liveAfter live op).2) ∧ Ok z' ids' keys' ∧
      ∀ k, k ∈ keys' ↔ k ∈ (liveAfter live op).1 := by
  cases op with
  | insert score obj level x =>
      obtain ⟨hpos, hmax, hfresh, hnew⟩ := hp
      obtain ⟨z', pre, post, lower, upper, heq, rfl, rfl, _, _, hok, _⟩ :=
        zslInsert_ok h (fun hmem => hnew ((hk _).mp hmem)) hpos hmax hfresh
      refine ⟨z', _, _, by rw [act, heq]; rfl, hok, ?_⟩
      intro k
      rw [liveAfter, List.mem_cons, ← hk k]
      simp only [List.mem_append, List.mem_cons]
      tauto
  | delete score obj =>
      obtain ⟨z', ids', keys', heq, hok, hkeys⟩ := zslDelete_ok h score obj
      refine ⟨z', ids', keys', ?_, hok, ?_⟩
      · simp only [act, heq, Option.map_some, liveAfter, hk]
      · intro k
        rw [hkeys k, hk k, liveAfter, List.mem_filter]
        simp only [ne_eq, decide_not, Bool.not_eq_true', decide_eq_false_iff_not]
        tauto

/-- **Every run** of the list is a run of the set. -/
theorem run_ok : ∀ (ops : List (Op σ)) {z : Zskiplist σ} {ids : List NodeId}
    {keys live : List (σ ×ₗ List Nat)}, Ok z ids keys → (∀ k, k ∈ keys ↔ k ∈ live) →
    ProperRun z live ops → ∃ z' ids' keys', run z ops = some (z', (liveRun live ops).2) ∧
      Ok z' ids' keys' ∧ ∀ k, k ∈ keys' ↔ k ∈ (liveRun live ops).1 := by
  intro ops
  induction ops with
  | nil => intro z ids keys live h hk _; exact ⟨z, ids, keys, rfl, h, hk⟩
  | cons op ops ih =>
      intro z ids keys live h hk hp
      obtain ⟨z₁, ids₁, keys₁, hact, h₁, hk₁⟩ := act_ok h hk hp.1
      obtain ⟨z', ids', keys', hrun, h', hk'⟩ := ih h₁ hk₁ (hp.2 z₁ _ hact)
      refine ⟨z', ids', keys', ?_, h', hk'⟩
      simp only [run, hact, hrun, Option.map_some, liveRun]

omit [LinearOrder σ] in
theorem zslCreate_height [Zero σ] (header w : NodeId) :
    (zslCreate header : Zskiplist σ).height w = if w = header then ZSKIPLIST_MAXLEVEL else 0 := by
  unfold Zskiplist.height zslCreate
  by_cases hw : w = header
  · simp only [hw, Function.update_self, if_true, length_zslCreateNode]
  · simp only [Function.update_of_ne hw, if_neg hw]

theorem zslCreate_ok [Zero σ] (header : NodeId) : Ok (zslCreate header : Zskiplist σ) [] [] := by
  have hlane : ∀ i, i < ZSKIPLIST_MAXLEVEL →
      (zslCreate header : Zskiplist σ).lane i header = some ⟨none, 0⟩ := by
    intro i hi
    simp [Zskiplist.lane, Zskiplist.lev, zslCreate, zslCreateNode, hi]
  refine ⟨⟨?_, ?_, ?_, Nat.one_pos, (by decide : 1 ≤ 32), ?_, ?_, ?_, rfl, rfl⟩, ⟨rfl, List.Pairwise.nil⟩,
    Or.inl rfl⟩
  · simp
  · exact (zslCreate_height header header).trans (if_pos rfl)
  · intro y hy
    exact absurd hy (by simp)
  · intro ahd y behind hids i hi _
    cases ahd with
    | nil =>
        obtain ⟨rfl, rfl⟩ := List.cons.inj hids
        have hi' : i < 1 := hi
        exact hlane i (by unfold ZSKIPLIST_MAXLEVEL; omega)
    | cons a ahd =>
        have := (List.cons.inj hids).2
        simp at this
  · intro i _ hi
    exact ⟨_, hlane i hi, rfl⟩
  · intro ahd y behind hids
    simp at hids

/-! ## Spans wrap -/

/-- The empty string. -/
def emptyObj : StringObj := ⟨.embstr [], rfl, True.intro, by decide⟩

/-- Insertions of nodes of height 1, in the order of their scores. -/
def ascending (n : Nat) : List (Op Nat) :=
  (List.range n).map (fun i => .insert i emptyObj 1 (i + 1))

theorem run_snoc : ∀ {ops : List (Op σ)} {z z₁ : Zskiplist σ} {rs : List (Option Bool)} {op : Op σ},
    run z ops = some (z₁, rs) →
    run z (ops ++ [op]) = (act z₁ op).map (fun p => (p.1, rs ++ [p.2])) := by
  intro ops
  induction ops with
  | nil =>
      intro z z₁ rs op h
      cases h
      simp only [List.nil_append, run]
      cases act z op with
      | none => rfl
      | some p => rfl
  | cons a ops ih =>
      intro z z₁ rs op h
      cases hact : act z a with
      | none => simp [run, hact] at h
      | some p =>
          simp only [run, hact, Option.map_eq_some_iff, Prod.mk.injEq] at h
          obtain ⟨⟨z₂, rs₂⟩, hrun, rfl, rfl⟩ := h
          simp only [List.cons_append, run, hact, ih hrun, Option.map_map]
          rfl

theorem properRun_snoc : ∀ {ops : List (Op σ)} {z z₁ : Zskiplist σ} {rs : List (Option Bool)}
    {live : List (σ ×ₗ List Nat)} {op : Op σ}, ProperRun z live ops → run z ops = some (z₁, rs) →
    op.Proper z₁ (liveRun live ops).1 → ProperRun z live (ops ++ [op]) := by
  intro ops
  induction ops with
  | nil =>
      intro z z₁ rs live op _ h hop
      cases h
      exact ⟨hop, fun _ _ _ => True.intro⟩
  | cons a ops ih =>
      intro z z₁ rs live op hp h hop
      refine ⟨hp.1, fun z' r hact => ?_⟩
      simp only [run, hact, Option.map_eq_some_iff, Prod.mk.injEq] at h
      obtain ⟨⟨z₂, rs₂⟩, hrun, rfl, rfl⟩ := h
      exact ih (hp.2 z' r hact) hrun hop

theorem liveRun_snoc : ∀ {ops : List (Op σ)} {live : List (σ ×ₗ List Nat)} {op : Op σ},
    (liveRun live (ops ++ [op])).1 = (liveAfter (liveRun live ops).1 op).1 := by
  intro ops
  induction ops with
  | nil => intro live op; rfl
  | cons a ops ih => intro live op; exact ih

/-- The list after such insertions. -/
structure Ascended (n : Nat) (z : Zskiplist Nat) (ids : List NodeId)
    (keys : List (Nat ×ₗ List Nat)) : Prop where
  ok : Ok z ids keys
  length : ids.length = n
  low : ∀ y ∈ ids, z.height y = 1
  level : z.level = 1
  fresh : ∀ w, n < w → z.node w = none
  below : ∀ k ∈ keys, ∀ score, n ≤ score → k < keyOf score emptyObj

/-- One more node at the end, of any height. -/
theorem Ascended.insert {n : Nat} {z : Zskiplist Nat} {ids : List NodeId}
    {keys : List (Nat ×ₗ List Nat)} (h : Ascended n z ids keys) {level : Nat} (hpos : 0 < level)
    (hmax : level ≤ ZSKIPLIST_MAXLEVEL) :
    ∃ z', zslInsert z n emptyObj level (n + 1) = some z' ∧
      Ok z' (ids ++ [n + 1]) (keys ++ [keyOf n emptyObj]) ∧
      z'.level = (if level > z.level then level else z.level) ∧
      z'.height = Function.update z.height (n + 1) level ∧
      z'.elem = Function.update z.elem (n + 1) (some (some emptyObj, n)) := by
  have hnew : keyOf n emptyObj ∉ keys := fun hk => lt_irrefl _ (h.below _ hk n (Nat.le_refl n))
  obtain ⟨z', pre, post, lower, upper, heq, rfl, rfl, hlen, hgt, hok, hrest⟩ :=
    zslInsert_ok h.ok hnew hpos hmax (h.fresh (n + 1) (Nat.lt_succ_self n))
  have hupper : upper = [] := by
    rw [List.eq_nil_iff_forall_not_mem]
    intro k hk
    exact lt_asymm (hgt k hk) (h.below k (by simp [hk]) n (Nat.le_refl n))
  subst hupper
  have hpost : post = [] := List.length_eq_zero_iff.mp hlen
  subst hpost
  rw [List.append_nil, List.append_nil] at *
  exact ⟨z', heq, hok, hrest⟩

omit [LinearOrder σ] in
theorem node_none (h : z.elem y = none) : z.node y = none := by
  cases hn : z.node y with
  | none => rfl
  | some n => simp [Zskiplist.elem, hn] at h

theorem keyOf_lt {score score' : Nat} (h : score < score') :
    keyOf score emptyObj < keyOf score' emptyObj := by
  rw [keyOf, keyOf, Prod.Lex.toLex_lt_toLex]
  exact Or.inl h

theorem ascending_run : ∀ n : Nat, ∃ z rs ids keys, run (zslCreate 0) (ascending n) = some (z, rs) ∧
    ProperRun (zslCreate 0) [] (ascending n) ∧ Ascended n z ids keys ∧
    ∀ k, k ∈ keys ↔ k ∈ (liveRun [] (ascending n)).1 := by
  intro n
  induction n with
  | zero =>
      refine ⟨zslCreate 0, [], [], [], rfl, True.intro,
        ⟨zslCreate_ok 0, rfl, by simp, rfl, ?_, by simp⟩, fun _ => Iff.rfl⟩
      intro w hw
      simp [zslCreate, Function.update_of_ne (Nat.ne_of_gt hw)]
  | succ n ih =>
      obtain ⟨z, rs, ids, keys, hrun, hproper, hasc, hk⟩ := ih
      obtain ⟨z', heq, hok, hlevel, hheight, helem⟩ :=
        hasc.insert Nat.one_pos (by decide : 1 ≤ 32)
      have hops : ascending (n + 1) = ascending n ++ [.insert n emptyObj 1 (n + 1)] := by
        simp [ascending, List.range_succ]
      have hnew : keyOf n emptyObj ∉ (liveRun [] (ascending n)).1 := by
        rw [← hk]
        exact fun hmem => lt_irrefl _ (hasc.below _ hmem n (Nat.le_refl n))
      have hact : act z (.insert n emptyObj 1 (n + 1)) = some (z', none) := by rw [act, heq]; rfl
      rw [hops]
      refine ⟨z', rs ++ [none], ids ++ [n + 1], keys ++ [keyOf n emptyObj], ?_, ?_,
        ⟨hok, by simp [hasc.length], ?_, ?_, ?_, ?_⟩, ?_⟩
      · rw [run_snoc hrun, hact]
        rfl
      · exact properRun_snoc hproper hrun
          ⟨Nat.one_pos, (by decide : 1 ≤ 32), hasc.fresh _ (Nat.lt_succ_self n), hnew⟩
      · intro y hy
        rw [hheight]
        by_cases hyn : y = n + 1
        · rw [hyn, Function.update_self]
        · rw [Function.update_of_ne hyn]
          rcases List.mem_append.mp hy with hy | hy
          · exact hasc.low y hy
          · exact absurd (List.mem_singleton.mp hy) hyn
      · rw [hlevel, hasc.level]
        rfl
      · intro w hw
        refine node_none ?_
        rw [helem, Function.update_of_ne (Nat.ne_of_gt hw), Zskiplist.elem,
          hasc.fresh w (Nat.lt_of_succ_lt hw)]
        rfl
      · intro k hmem score hscore
        rcases List.mem_append.mp hmem with hmem | hmem
        · exact hasc.below k hmem score (by omega)
        · rw [List.mem_singleton.mp hmem]
          exact keyOf_lt (by omega)
      · intro k
        rw [liveRun_snoc, liveAfter, List.mem_append, List.mem_singleton, List.mem_cons, hk k]
        tauto

/-- A node of height 2 behind `n` low ones: the header spans `n + 1` steps on level 1. -/
theorem ascending_span (n : Nat) : ∃ z rs,
    run (zslCreate 0) (ascending n ++ [.insert n emptyObj 2 (n + 1)]) = some (z, rs) ∧
    ProperRun (zslCreate 0) [] (ascending n ++ [.insert n emptyObj 2 (n + 1)]) ∧
    1 < z.level ∧ 1 < z.height z.header ∧
    z.lev z.header 1 = some ⟨some (n + 1), UInt32.ofNat (n + 1)⟩ ∧
    spanOf (z.header :: z.walk 0 z.length z.header) 0 (some (n + 1)) = n + 1 := by
  obtain ⟨z, rs, ids, keys, hrun, hproper, hasc, hk⟩ := ascending_run n
  obtain ⟨z', heq, hok, hlevel, hheight, _⟩ := hasc.insert Nat.two_pos (by decide : 2 ≤ 32)
  have hnew : keyOf n emptyObj ∉ (liveRun [] (ascending n)).1 := by
    rw [← hk]
    exact fun hmem => lt_irrefl _ (hasc.below _ hmem n (Nat.le_refl n))
  have hact : act z (.insert n emptyObj 2 (n + 1)) = some (z', none) := by rw [act, heq]; rfl
  have hlev2 : z'.level = 2 := by
    rw [hlevel, hasc.level]
    rfl
  have hl := hok.linked
  have hhead : 1 < z'.height z'.header := by
    rw [hl.headerHeight]
    decide
  have hlow : ∀ v ∈ ids, z'.tall 1 v = false := by
    intro v hv
    have hvn : v ≠ n + 1 := by
      rintro rfl
      have hnd := (List.nodup_cons.mp hl.nodup).2
      exact (List.nodup_append.mp hnd).2.2 _ hv _ (by simp) rfl
    rw [Zskiplist.tall, hheight, Function.update_of_ne hvn, hasc.low v hv]
    rfl
  have htall : z'.tall 1 (n + 1) = true := by
    rw [Zskiplist.tall, hheight, Function.update_self]
    rfl
  have hnd : (z'.header :: ids ++ [n + 1]).Nodup := hl.nodup
  refine ⟨z', rs ++ [none], ?_, ?_, by omega, hhead, ?_, ?_⟩
  · rw [run_snoc hrun, hact]
    rfl
  · exact properRun_snoc hproper hrun
      ⟨Nat.two_pos, (by decide : 2 ≤ 32), hasc.fresh _ (Nat.lt_succ_self n), hnew⟩
  · have hlink := hl.links [] z'.header (ids ++ [n + 1]) rfl 1 (by omega) hhead
    rw [linkTo, ahead_append_low hlow, ahead_cons_tall htall, hasc.length] at hlink
    exact hlink
  · rw [(@Ok.shows _ _ _ _ _ hok (· ∈ keys ++ [keyOf n emptyObj]) fun _ => Iff.rfl).bottom, spanOf,
      ← List.cons_append, idxOf_middle hnd]
    simp [hasc.length]

/-! ## The sorted set -/

end Skiplist

end RedisCore
