/-
# `RedisCore.Adlist.Edits` — what the list functions do to the nodes of a list

`Mirror h list xs` says that `list` has the nodes `xs`, linked in both directions.  Each
function keeps this for the sequence it makes of `xs`, and does nothing else in memory
(`Turned`).
-/
import RedisCore.Adlist.Code

namespace RedisCore.Adlist

open TwoWay

variable {V : Type}

/-! ## What a list in memory stands for -/

/-- The nodes of a list in their order: linked both ways, the ends where the list says, and as
many as it says. -/
structure Mirror (h : Heap V) (list : Alist V) (xs : List (Nat × V)) : Prop where
  seg : Seg h.node none xs none
  nodup : (ids xs).Nodup
  head : list.head = first xs none
  tail : list.tail = last none xs
  len : list.len = xs.length

/-- All that happens in memory is that the nodes `xs` become the nodes `ys`. -/
structure Turned (h h' : Heap V) (xs ys : List (Nat × V)) : Prop where
  gone : ∀ a ∈ ids xs, a ∉ ids ys → h'.node a = none
  kept : ∀ a, a ∉ ids xs → a ∉ ids ys → h'.node a = h.node a

/-- The methods of a list. -/
def SameMethods (list list' : Alist V) : Prop :=
  list'.dup = list.dup ∧ list'.free = list.free ∧ list'.matchMethod = list.matchMethod

variable {h h' : Heap V} {list list' : Alist V} {xs ys : List (Nat × V)} {x : Nat × V}

theorem SameMethods.refl (list : Alist V) : SameMethods list list := ⟨rfl, rfl, rfl⟩

@[simp] theorem callFree_node (h : Heap V) (list : Alist V) (value : V) :
    (callFree h list value).node = h.node := by
  unfold callFree
  split <;> rfl

theorem callFree_congr (h : Heap V) (hs : SameMethods list list') (value : V) :
    callFree h list' value = callFree h list value := by
  rw [callFree, callFree, hs.2.1]

theorem Mirror.fresh (hm : Mirror h list xs) {node : Nat} (hfree : h.node node = none) :
    node ∉ ids xs := by
  intro hin
  obtain ⟨c, hc⟩ := hm.seg.isSome hin
  rw [hfree] at hc
  exact nomatch hc

theorem Mirror.len_eq_zero (hm : Mirror h list xs) : list.len = 0 ↔ xs = [] := by
  rw [hm.len, List.length_eq_zero_iff]

theorem nodup_middle :
    (ids (xs ++ x :: ys)).Nodup ↔ (ids (xs ++ ys)).Nodup ∧ x.1 ∉ ids (xs ++ ys) := by
  have hperm : (ids (xs ++ x :: ys)).Perm (x.1 :: ids (xs ++ ys)) := by
    simp [ids, List.perm_middle]
  rw [hperm.nodup_iff, List.nodup_cons, and_comm]

/-- A new node between two parts of a list: what the functions that add one come to. -/
theorem Mirror.add (hm : Mirror h list (xs ++ ys)) (hx : h.node x.1 = none) :
    ∃ m₁ m₂, relinkNext (Function.update h.node x.1 (some ⟨last none xs, first ys none, x.2⟩))
        (last none xs) (some x.1) = some m₁ ∧
      relinkPrev m₁ (first ys none) (some x.1) = some m₂ ∧
      Mirror { h with node := m₂ } { list with
        head := first (xs ++ x :: ys) none, tail := last none (xs ++ x :: ys), len := list.len + 1 }
        (xs ++ x :: ys) ∧
      Turned h { h with node := m₂ } (xs ++ ys) (xs ++ x :: ys) := by
  have hnew := hm.fresh hx
  obtain ⟨m₁, m₂, h₁, h₂, hseg, hkept⟩ := splice hm.seg hm.nodup hnew
  refine ⟨m₁, m₂, h₁, h₂, ⟨hseg, ?_, rfl, rfl, ?_⟩, ?_, fun a _ ha => hkept a ha⟩
  · exact nodup_middle.mpr ⟨hm.nodup, hnew⟩
  · simp [hm.len, Nat.add_assoc]
  · intro a ha hna
    refine absurd ?_ hna
    simp only [ids, List.map_append, List.map_cons, List.mem_append, List.mem_cons] at ha ⊢
    tauto

theorem listAddNodeHead_spec (hm : Mirror h list xs) {node : Nat} (hfree : h.node node = none)
    (value : V) :
    ∃ h' list', listAddNodeHead h list value (some node) = some (h', list', true) ∧
      Mirror h' list' ((node, value) :: xs) ∧ Turned h h' xs ((node, value) :: xs) ∧
      SameMethods list list' := by
  obtain ⟨m₁, m₂, h₁, h₂, hm', ht⟩ := @Mirror.add _ _ _ [] xs (node, value) hm hfree
  cases xs with
  | nil =>
      cases h₁
      cases h₂
      refine ⟨_, _, ?_, hm', ht, SameMethods.refl list⟩
      rw [listAddNodeHead, if_pos (hm.len_eq_zero.mpr rfl)]
      rfl
  | cons y ys =>
      cases h₁
      refine ⟨_, _, ?_, hm', ht, SameMethods.refl list⟩
      have hlen : ¬ list.len = 0 := fun h0 => List.cons_ne_nil y ys (hm.len_eq_zero.mp h0)
      have htail : list.tail = last none ((node, value) :: y :: ys) := hm.tail
      rw [listAddNodeHead, if_neg hlen, hm.head]
      simp only [last_nil, relinkPrev, first_cons] at h₂
      simp [h₂, ← htail]

theorem listAddNodeTail_spec (hm : Mirror h list xs) {node : Nat} (hfree : h.node node = none)
    (value : V) :
    ∃ h' list', listAddNodeTail h list value (some node) = some (h', list', true) ∧
      Mirror h' list' (xs ++ [(node, value)]) ∧ Turned h h' xs (xs ++ [(node, value)]) ∧
      SameMethods list list' := by
  obtain ⟨m₁, m₂, h₁, h₂, hm', ht⟩ := @Mirror.add _ _ _ xs [] (node, value)
    (by rwa [List.append_nil]) hfree
  rw [List.append_nil] at ht
  cases h₂
  cases xs with
  | nil =>
      cases h₁
      refine ⟨_, _, ?_, hm', ht, SameMethods.refl list⟩
      rw [listAddNodeTail, if_pos (hm.len_eq_zero.mpr rfl)]
      rfl
  | cons y ys =>
      refine ⟨_, _, ?_, hm', ht, SameMethods.refl list⟩
      have hlen : ¬ list.len = 0 := fun h0 => List.cons_ne_nil y ys (hm.len_eq_zero.mp h0)
      have hhead : list.head = some y.1 := hm.head
      rw [listAddNodeTail, if_neg hlen, hm.tail]
      obtain ⟨a, ha⟩ : ∃ a, last none (y :: ys) = some a := last_some y.1 ys
      rw [ha] at h₁ ⊢
      simp only [relinkNext, first_nil] at h₁
      simp [h₁, ← hhead]

/-- Where a list is cut in two, the end of the first part is the end of the list just where the
second part is empty. -/
theorem Mirror.tail_eq_last (hm : Mirror h list (xs ++ x :: ys)) :
    list.tail = some x.1 ↔ ys = [] := by
  rw [hm.tail, last_append, last_cons]
  constructor
  · intro he
    by_contra hys
    have hin : x.1 ∈ ids ys := last_mem hys he
    have hnd := hm.nodup
    rw [ids, List.map_append, List.map_cons] at hnd
    exact (List.nodup_cons.mp (List.nodup_append.mp hnd).2.1).1 hin
  · rintro rfl
    rfl

theorem Mirror.head_eq_first (hm : Mirror h list (xs ++ x :: ys)) :
    list.head = some x.1 ↔ xs = [] := by
  rw [hm.head]
  cases xs with
  | nil => simp
  | cons y xs =>
      have hnd := hm.nodup
      simp only [List.cons_append, ids, List.map_cons, List.map_append, List.nodup_cons] at hnd
      simp only [List.cons_append, first_cons, Option.some.injEq, reduceCtorEq, iff_false]
      intro he
      exact hnd.1 (by simp [he])

/-- `listInsertNode` behind a node. -/
theorem listInsertNode_after (hm : Mirror h list (xs ++ x :: ys)) {node : Nat}
    (hfree : h.node node = none) (value : V) :
    ∃ h' list', listInsertNode h list x.1 value true (some node) = some (h', list', true) ∧
      Mirror h' list' (xs ++ x :: (node, value) :: ys) ∧
      Turned h h' (xs ++ x :: ys) (xs ++ x :: (node, value) :: ys) ∧ SameMethods list list' := by
  have happ : xs ++ x :: ys = (xs ++ [x]) ++ ys := by simp
  have happ' : xs ++ x :: (node, value) :: ys = (xs ++ [x]) ++ (node, value) :: ys := by simp
  have hx : h.node x.1 = some ⟨last none xs, first ys none, x.2⟩ := (seg_append.mp hm.seg).2.1
  have htail := hm.tail_eq_last
  have hhead : list.head = first (xs ++ [x] ++ (node, value) :: ys) none := by
    rw [hm.head, first_append, List.append_assoc, first_append]
    rfl
  rw [happ] at hm
  rw [happ, happ']
  obtain ⟨m₁, m₂, h₁, h₂, hm', ht⟩ := hm.add (x := (node, value)) hfree
  rw [last_concat] at h₁
  refine ⟨_, _, ?_, hm', ht, SameMethods.refl list⟩
  rw [listInsertNode, hx]
  simp only [Option.bind_eq_bind, Option.bind_some, if_true]
  rw [h₁, Option.bind_some, h₂, Option.bind_some]
  have hends : (if list.tail = some x.1 then { list with tail := some node } else list) =
      { list with
        head := first (xs ++ [x] ++ (node, value) :: ys) none
        tail := last none (xs ++ [x] ++ (node, value) :: ys) } := by
    rw [← hhead]
    cases ys with
    | nil =>
        rw [if_pos (htail.mpr rfl), last_concat]
    | cons y ys =>
        rw [if_neg (fun he => List.cons_ne_nil y ys (htail.mp he))]
        have : list.tail = last none (xs ++ [x] ++ (node, value) :: y :: ys) := by
          rw [hm.tail]
          simp [last_append]
        rw [← this]
  rw [hends]

/-- `listInsertNode` in front of a node. -/
theorem listInsertNode_before (hm : Mirror h list (xs ++ x :: ys)) {node : Nat}
    (hfree : h.node node = none) (value : V) :
    ∃ h' list', listInsertNode h list x.1 value false (some node) = some (h', list', true) ∧
      Mirror h' list' (xs ++ (node, value) :: x :: ys) ∧
      Turned h h' (xs ++ x :: ys) (xs ++ (node, value) :: x :: ys) ∧ SameMethods list list' := by
  have hx : h.node x.1 = some ⟨last none xs, first ys none, x.2⟩ := (seg_append.mp hm.seg).2.1
  obtain ⟨m₁, m₂, h₁, h₂, hm', ht⟩ := hm.add (x := (node, value)) hfree
  rw [first_cons] at h₁ h₂
  refine ⟨_, _, ?_, hm', ht, SameMethods.refl list⟩
  rw [listInsertNode, hx]
  simp only [Option.bind_eq_bind, Option.bind_some, Bool.false_eq_true, if_false]
  rw [h₁, Option.bind_some, h₂, Option.bind_some]
  have hends : (if list.head = some x.1 then { list with head := some node } else list) =
      { list with
        head := first (xs ++ (node, value) :: x :: ys) none
        tail := last none (xs ++ (node, value) :: x :: ys) } := by
    have htail : list.tail = last none (xs ++ (node, value) :: x :: ys) := by
      rw [hm.tail]
      simp [last_append]
    rw [← htail]
    cases xs with
    | nil => rw [if_pos (hm.head_eq_first.mpr rfl), List.nil_append, first_cons]
    | cons y xs =>
        rw [if_neg (fun he => List.cons_ne_nil y xs (hm.head_eq_first.mp he))]
        have hhead : list.head = first (y :: xs ++ (node, value) :: x :: ys) none := hm.head
        rw [← hhead]
  rw [hends]

theorem listDelNode_spec (hm : Mirror h list (xs ++ x :: ys)) :
    ∃ h' list', listDelNode h list x.1 = some (h', list') ∧ Mirror h' list' (xs ++ ys) ∧
      Turned h h' (xs ++ x :: ys) (xs ++ ys) ∧ SameMethods list list' ∧
      h'.freed = if list.free then h.freed ++ [x.2] else h.freed := by
  obtain ⟨hnd, hxid⟩ := nodup_middle.mp hm.nodup
  have hx : h.node x.1 = some ⟨last none xs, first ys none, x.2⟩ := (seg_append.mp hm.seg).2.1
  obtain ⟨m₁, m₂, h₁, hx₁, h₂, hx₂, hseg, hkept⟩ := unsplice hm.seg hnd hxid
  have hhead : (if last none xs = none then { list with head := first ys none } else list) =
      { list with head := first (xs ++ ys) none } := by
    cases hlast : last none xs with
    | none =>
        rw [eq_nil_of_last hlast]
        rfl
    | some a =>
        have hsame : list.head = first (xs ++ ys) none := by
          rw [hm.head, first_append, first_append, first_of_last hlast]
        rw [if_neg (by simp), ← hsame]
  have htail (head : Option Nat) :
      (if first ys none = none then { list with head := head, tail := last none xs }
        else { list with head := head }) =
      { list with head := head, tail := last none (xs ++ ys) } := by
    cases ys with
    | nil => rw [first_nil, if_pos rfl, List.append_nil]
    | cons y ys =>
        have hsame : list.tail = last none (xs ++ y :: ys) := by
          rw [hm.tail]
          simp [last_append]
        rw [if_neg (by simp), ← hsame]
  refine ⟨zfree (callFree { h with node := m₂ } list x.2) x.1,
    { list with head := first (xs ++ ys) none, tail := last none (xs ++ ys), len := list.len - 1 },
    ?_, ?_, ?_, SameMethods.refl list, ?_⟩
  · rw [listDelNode, hx]
    simp only [Option.bind_eq_bind, Option.bind_some]
    rw [h₁, Option.bind_some, hx₁, Option.bind_some, h₂, Option.bind_some, hx₂, Option.bind_some]
    rw [hhead, htail]
    rfl
  · refine ⟨?_, hnd, rfl, rfl, ?_⟩
    · rw [zfree, callFree_node]
      exact hseg
    · show list.len - 1 = (xs ++ ys).length
      rw [hm.len, List.length_append, List.length_append, List.length_cons]
      omega
  · refine ⟨fun a ha hna => ?_, fun a ha hna => ?_⟩
    · obtain rfl : a = x.1 := by
        simp only [ids, List.map_append, List.map_cons, List.mem_append, List.mem_cons] at ha hna
        tauto
      exact Function.update_self _ _ _
    · have hax : a ≠ x.1 := by
        rintro rfl
        exact ha (by simp)
      rw [zfree, callFree_node]
      exact (Function.update_of_ne hax _ _).trans (hkept a ha)
  · simp only [zfree, callFree]
    split <;> rfl

theorem listRotate_nil (hm : Mirror h list []) : listRotate h list = some (h, list) := by
  rw [listRotate, if_pos (by rw [hm.len]; exact Nat.zero_le 1)]

theorem listRotate_concat (hm : Mirror h list (xs ++ [x])) :
    ∃ h' list', listRotate h list = some (h', list') ∧ Mirror h' list' (x :: xs) ∧
      Turned h h' (xs ++ [x]) (x :: xs) ∧ SameMethods list list' := by
  have hperm : (ids (x :: xs)).Perm (ids (xs ++ [x])) := by
    simpa [ids] using (List.perm_append_singleton x.1 (ids xs)).symm
  have hmem : ∀ a, a ∈ ids (x :: xs) ↔ a ∈ ids (xs ++ [x]) := fun a => hperm.mem_iff
  cases xs with
  | nil =>
      refine ⟨h, list, ?_, hm, ⟨fun a ha hna => absurd ha hna, fun _ _ _ => rfl⟩,
        SameMethods.refl list⟩
      rw [listRotate, if_pos (by rw [hm.len]; exact Nat.le_refl 1)]
  | cons y ys =>
      obtain ⟨b, hb⟩ := last_some y.1 ys
      have hcell := (seg_concat.mp hm.seg).2
      obtain ⟨m₁, m₂, m₃, m₄, h₁, h₂, h₃, h₄, hseg, hkept⟩ := turn hm.seg hm.nodup
      rw [last_cons, hb] at h₁ hcell
      refine ⟨{ h with node := m₄ }, { list with tail := some b, head := some x.1 }, ?_,
        ⟨hseg, hperm.nodup_iff.mpr hm.nodup, rfl, hb.symm, ?_⟩, ?_, SameMethods.refl list⟩
      · have hlen : ¬ list.len ≤ 1 := by
          rw [hm.len]
          simp
        rw [listRotate, if_neg hlen, hm.tail, last_concat, hm.head]
        simp only [Option.bind_eq_bind, Option.bind_some, hcell, List.cons_append, first_cons]
        rw [relinkNext] at h₁
        rw [h₁, Option.bind_some, h₂, Option.bind_some, h₃, Option.bind_some, h₄, Option.bind_some]
      · show list.len = _
        rw [hm.len]
        simp
      · exact ⟨fun a ha hna => absurd ((hmem a).mpr ha) hna, fun a _ ha => hkept a ha⟩

/-! ## Following the pointers -/

/-- `listNext` towards the tail. -/
theorem listNext_head {p : Option Nat} (hs : Seg h.node p (x :: xs) none) :
    listNext h ⟨some x.1, .startHead⟩ = some (some x.1, ⟨first xs none, .startHead⟩) := by
  rw [listNext]
  simp only [hs.1]
  rfl

/-- `listNext` towards the head. -/
theorem listNext_tail {q : Option Nat} (hs : Seg h.node none (xs ++ [x]) q) :
    listNext h ⟨some x.1, .startTail⟩ = some (some x.1, ⟨last none xs, .startTail⟩) := by
  rw [listNext]
  simp only [(seg_concat.mp hs).2]
  rfl

@[simp] theorem listNext_end (h : Heap V) (direction : Direction) :
    listNext h ⟨none, direction⟩ = some (none, ⟨none, direction⟩) := rfl

theorem indexLoop_eq {next : Nat → Option (Option Nat)} {p : Option Nat} {as : List Nat}
    (hc : Linked.Chain next p as none) (index : Nat) : indexLoop next index p = some as[index]? := by
  induction as generalizing p index with
  | nil =>
      cases hc
      cases index <;> rfl
  | cons a as ih =>
      obtain ⟨rfl, n, hn, hrest⟩ := hc
      cases index with
      | zero => rfl
      | succ index =>
          rw [indexLoop, hn]
          exact ih hrest index

theorem listIndex_ofNat (hm : Mirror h list xs) (index : Nat) :
    listIndex h list index = some (ids xs)[index]? := by
  rw [listIndex, if_neg (by omega), hm.head]
  exact indexLoop_eq hm.seg.forward _

theorem listIndex_neg (hm : Mirror h list xs) {index : Nat} (hlt : index < xs.length) :
    listIndex h list ((index : Int) - xs.length) = some (ids xs)[index]? := by
  have hback : (-((index : Int) - xs.length) - 1).toNat = xs.length - 1 - index := by omega
  rw [listIndex, if_pos (by omega), hm.tail, hback, indexLoop_eq hm.seg.backward,
    List.getElem?_reverse (by simp; omega)]
  congr 2
  simp
  omega

/-! ## Releasing and copying -/

theorem Turned.trans {h₁ h₂ : Heap V} {zs : List (Nat × V)} (ht₁ : Turned h h₁ xs ys)
    (ht₂ : Turned h₁ h₂ ys zs) (hnew : ∀ a ∈ ids ys, a ∉ ids xs → h.node a = none) :
    Turned h h₂ xs zs := by
  refine ⟨fun a hx hz => ?_, fun a hx hz => ?_⟩
  · by_cases hy : a ∈ ids ys
    · exact ht₂.gone a hy hz
    · rw [ht₂.kept a hy hz, ht₁.gone a hx hy]
  · by_cases hy : a ∈ ids ys
    · rw [ht₂.gone a hy hz, hnew a hy hx]
    · rw [ht₂.kept a hy hz, ht₁.kept a hx hy]

theorem releaseLoop_spec {p : Option Nat} (list : Alist V) (hs : Seg h.node p xs none)
    (hnd : (ids xs).Nodup) :
    ∃ h', releaseLoop list xs.length h (first xs none) = some h' ∧ Turned h h' xs [] ∧
      h'.freed = if list.free then h.freed ++ xs.map Prod.snd else h.freed := by
  induction xs generalizing h p with
  | nil =>
      refine ⟨h, rfl, ⟨fun _ _ _ => ?_, fun _ _ _ => rfl⟩, ?_⟩
      · contradiction
      · simp
  | cons x xs ih =>
      obtain ⟨hx, hrest⟩ := hs
      obtain ⟨hxid, hnd'⟩ := List.nodup_cons.mp hnd
      have hrest' : Seg (zfree (callFree h list x.2) x.1).node (some x.1) xs none := by
        rw [zfree, callFree_node]
        exact hrest.update hxid none
      obtain ⟨h', hrun, ht, hfreed⟩ := ih hrest' hnd'
      refine ⟨h', ?_, ⟨fun a ha hna => ?_, fun a ha hna => ?_⟩, ?_⟩
      · rw [List.length_cons, releaseLoop, first_cons]
        simp only [Option.bind_eq_bind, Option.bind_some, hx]
        exact hrun
      · rcases List.mem_cons.mp ha with rfl | ha
        · rw [ht.kept _ hxid hna]
          exact Function.update_self _ _ _
        · exact ht.gone a ha hna
      · obtain ⟨hax, ha⟩ := not_or.mp (fun hm => ha (List.mem_cons.mpr hm))
        rw [ht.kept a ha hna, zfree, callFree_node]
        exact Function.update_of_ne hax _ _
      · rw [hfreed]
        cases hf : list.free <;> simp [zfree, callFree, hf]

theorem listRelease_spec (hm : Mirror h list xs) :
    ∃ h', listRelease h list = some h' ∧ Turned h h' xs [] ∧
      h'.freed = if list.free then h.freed ++ xs.map Prod.snd else h.freed := by
  rw [listRelease, hm.len, hm.head]
  exact releaseLoop_spec list hm.seg hm.nodup

/-- The nodes of a copy: one at each address, with the values copied; `none` where `dup` fails
or there are too few addresses. -/
def copied (dup : Option (V → Option V)) : List (Nat × V) → List Nat → Option (List (Nat × V))
  | [], _ => some []
  | _ :: _, [] => none
  | x :: xs, node :: nodes => do
    let value ← dupValue dup x.2
    let rest ← copied dup xs nodes
    some ((node, value) :: rest)

theorem copied_ids {dup : Option (V → Option V)} {nodes : List Nat}
    (hc : copied dup xs nodes = some ys) : ids ys <+: nodes ∧
      xs.map (fun x => dupValue dup x.2) = ys.map (fun y => some y.2) := by
  induction xs generalizing nodes ys with
  | nil =>
      cases hc
      exact ⟨List.nil_prefix, rfl⟩
  | cons x xs ih =>
      cases nodes with
      | nil => exact nomatch hc
      | cons node nodes =>
          obtain ⟨value, hv, hc⟩ := Option.bind_eq_some_iff.mp hc
          obtain ⟨rest, hr, hc⟩ := Option.bind_eq_some_iff.mp hc
          cases hc
          obtain ⟨hpre, hvals⟩ := ih hr
          refine ⟨?_, ?_⟩
          · simpa [ids] using hpre
          · simp [hv, hvals]

/-- What `listDup` makes of a list of nodes: another list of the copied ones, or nothing at
all. -/
def Duplicated (h h' : Heap V) (copy : Alist V) (xs : List (Nat × V)) (result : Option (Alist V)) :
    Option (List (Nat × V)) → Prop
  | some ys => ∃ copy', result = some copy' ∧ Mirror h' copy' (xs ++ ys) ∧
      Turned h h' xs (xs ++ ys) ∧ SameMethods copy copy'
  | none => result = none ∧ Turned h h' xs []

theorem dupLoop_spec {copy : Alist V} {p : Option Nat} {fuel : Nat} {nodes : List Nat}
    (hs : Seg h.node p ys none) (hm : Mirror h copy xs) (hdisj : ∀ a ∈ ids ys, a ∉ ids xs)
    (hfree : ∀ node ∈ nodes, h.node node = none) (hnd : nodes.Nodup) (hfuel : ys.length < fuel) :
    ∃ h' result, dupLoop fuel h copy ⟨first ys none, .startHead⟩ nodes = some (h', result) ∧
      Duplicated h h' copy xs result (copied copy.dup ys nodes) := by
  induction ys generalizing h copy p fuel nodes xs with
  | nil =>
      obtain ⟨fuel, rfl⟩ : ∃ k, fuel = k + 1 := ⟨fuel - 1, by simp at hfuel; omega⟩
      refine ⟨h, some copy, rfl, copy, rfl, by rwa [List.append_nil], ?_, SameMethods.refl copy⟩
      rw [List.append_nil]
      exact ⟨fun a ha hna => absurd ha hna, fun _ _ _ => rfl⟩
  | cons y ys ih =>
      obtain ⟨fuel, rfl⟩ : ∃ k, fuel = k + 1 := ⟨fuel - 1, by simp at hfuel; omega⟩
      have hrelease : ∃ h' result, (listRelease h copy).map (·, none) = some (h', result) ∧
          Duplicated h h' copy xs result none := by
        obtain ⟨h', hrun, ht, -⟩ := listRelease_spec hm
        exact ⟨h', none, by rw [hrun]; rfl, rfl, ht⟩
      rw [dupLoop, first_cons, listNext_head hs]
      simp only [Option.bind_eq_bind, Option.bind_some, hs.1]
      cases hv : dupValue copy.dup y.2 with
      | none =>
          have hc : copied copy.dup (y :: ys) nodes = none := by
            cases nodes with
            | nil => rfl
            | cons node nodes => rw [copied, hv]; rfl
          rw [hc]
          exact hrelease
      | some value =>
          cases nodes with
          | nil => exact hrelease
          | cons node nodes =>
              obtain ⟨hnode, hnd'⟩ := List.nodup_cons.mp hnd
              have hnew := hfree node List.mem_cons_self
              have hin : ∀ a ∈ ids (y :: ys), a ≠ node := by
                rintro a ha rfl
                obtain ⟨c, hc⟩ := hs.isSome ha
                rw [hnew] at hc
                cases hc
              obtain ⟨h₁, copy₁, hadd, hm₁, ht₁, hsame₁⟩ := listAddNodeTail_spec hm hnew value
              have hkept : ∀ a, a ∉ ids xs → a ≠ node → h₁.node a = h.node a := by
                intro a ha hne
                exact ht₁.kept a ha (by simp [ids] at ha ⊢; tauto)
              have hnotin : ∀ a ∈ ids (y :: ys), a ∉ ids (xs ++ [(node, value)]) := by
                intro a ha hm
                rw [ids, List.map_append, List.mem_append] at hm
                rcases hm with hm | hm
                · exact hdisj a ha hm
                · exact hin a ha (by simpa using hm)
              have hs₁ : Seg h₁.node (some y.1) ys none := by
                refine hs.2.congr (fun a ha => hkept a ?_ ?_)
                · exact hdisj a (List.mem_cons_of_mem _ ha)
                · exact hin a (List.mem_cons_of_mem _ ha)
              have hfree₁ : ∀ n ∈ nodes, h₁.node n = none := by
                intro n hn
                have hne : n ≠ node := by
                  rintro rfl
                  exact hnode hn
                have hnone := hfree n (List.mem_cons_of_mem _ hn)
                rw [hkept n (hm.fresh hnone) hne, hnone]
              obtain ⟨h₂, result, hrun, hdup⟩ := ih hs₁ hm₁
                (fun a ha => hnotin a (List.mem_cons_of_mem _ ha)) hfree₁ hnd'
                (by simp at hfuel; omega)
              have hnewids : ∀ a ∈ ids (xs ++ [(node, value)]), a ∉ ids xs → h.node a = none := by
                intro a ha hna
                rw [ids, List.map_append, List.mem_append] at ha
                rcases ha with ha | ha
                · exact absurd ha hna
                · obtain rfl : a = node := by simpa using ha
                  exact hnew
              refine ⟨h₂, result, ?_, ?_⟩
              · simp only [List.head?_cons, hadd, Option.bind_some, if_true, List.tail_cons]
                exact hrun
              · rw [hsame₁.1] at hdup
                rw [copied, hv, Option.bind_eq_bind, Option.bind_some]
                cases hc : copied copy.dup ys nodes with
                | none =>
                    rw [hc] at hdup
                    exact ⟨hdup.1, ht₁.trans hdup.2 hnewids⟩
                | some zs =>
                    rw [hc] at hdup
                    obtain ⟨copy', hres, hm', ht', hsame⟩ := hdup
                    rw [List.append_assoc] at hm' ht'
                    refine ⟨copy', hres, hm', ht₁.trans ht' hnewids, ?_⟩
                    exact ⟨hsame.1.trans hsame₁.1, hsame.2.1.trans hsame₁.2.1,
                      hsame.2.2.trans hsame₁.2.2⟩

theorem listDup_spec (hm : Mirror h list xs) {nodes : List Nat}
    (hfree : ∀ node ∈ nodes, h.node node = none) (hnd : nodes.Nodup) :
    ∃ h' result, listDup h list true nodes = some (h', result) ∧
      Duplicated h h'
        { (listCreate : Alist V) with
          dup := list.dup, free := list.free, matchMethod := list.matchMethod }
        [] result (copied list.dup xs nodes) := by
  have hnew : Mirror h
      { (listCreate : Alist V) with
        dup := list.dup, free := list.free, matchMethod := list.matchMethod } [] :=
    ⟨seg_nil, List.nodup_nil, rfl, rfl, rfl⟩
  rw [listDup, if_pos rfl, listRewind, hm.head, hm.len]
  exact dupLoop_spec hm.seg hnew (fun _ _ => List.not_mem_nil) hfree hnd (Nat.lt_succ_self _)

/-! ## Searching -/

/-- Whether `listSearchKey` takes a value for the key. -/
def sameKey [DecidableEq V] (list : Alist V) (key value : V) : Bool :=
  match list.matchMethod with
  | some same => same value key
  | none => decide (key = value)

theorem searchLoop_spec [DecidableEq V] (list : Alist V) (key : V) {p : Option Nat} {fuel : Nat}
    (hs : Seg h.node p xs none) (hfuel : xs.length < fuel) :
    searchLoop h list key fuel ⟨first xs none, .startHead⟩ =
      some ((xs.find? fun x => sameKey list key x.2).map Prod.fst) := by
  induction xs generalizing p fuel with
  | nil =>
      obtain ⟨fuel, rfl⟩ : ∃ k, fuel = k + 1 := ⟨fuel - 1, by simp at hfuel; omega⟩
      rfl
  | cons x xs ih =>
      obtain ⟨fuel, rfl⟩ : ∃ k, fuel = k + 1 := ⟨fuel - 1, by simp at hfuel; omega⟩
      rw [searchLoop, first_cons, listNext_head hs]
      simp only [Option.bind_eq_bind, Option.bind_some, hs.1]
      show (if sameKey list key x.2 = true then _ else _) = _
      by_cases hk : sameKey list key x.2 = true
      · rw [if_pos hk, List.find?_cons, hk]
        rfl
      · rw [if_neg hk, List.find?_cons, eq_false_of_ne_true hk]
        exact ih hs.2 (by simp at hfuel; omega)

/-- `listSearchKey` finds the first node with a value that matches the key. -/
theorem listSearchKey_spec [DecidableEq V] (hm : Mirror h list xs) (key : V) :
    listSearchKey h list key =
      some ((xs.find? fun x => sameKey list key x.2).map Prod.fst) := by
  rw [listSearchKey, listRewind, hm.head, hm.len]
  exact searchLoop_spec list key hm.seg (Nat.lt_succ_self _)

end RedisCore.Adlist
