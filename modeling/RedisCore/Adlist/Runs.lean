/-
# `RedisCore.Adlist.Runs` — lists as sequences, over whole runs

The abstract lists are sequences of nodes with their values, and `Op.expected` says what each
operation makes of them.  A run over lists in memory that calls the functions as their comments
allow does not fail, and leaves lists that read forwards as the expected sequences and backwards
as their mirror images (`adlist_refines`).  The caller passes nodes that are in the list, and
`zmalloc` returns addresses at which there is no node.
-/
import RedisCore.Adlist.Edits

namespace RedisCore.Adlist

open TwoWay

variable {V : Type}

/-- A list as the sequence of its nodes, and how its values are copied. -/
structure Seq (V : Type) where
  dup : Option (V → Option V)
  nodes : List (Nat × V)

/-- What is called on the list with a number; with `node` and `nodes` the addresses `zmalloc`
returns, with `room` whether it returns one for a list. -/
inductive Op (V : Type) where
  | create
  | setMethods (list : Nat) (dup : Option (V → Option V)) (free : Bool)
      (matchMethod : Option (V → V → Bool))
  | addNodeHead (list : Nat) (value : V) (node : Option Nat)
  | addNodeTail (list : Nat) (value : V) (node : Option Nat)
  | insertNode (list old_node : Nat) (value : V) (after : Bool) (node : Option Nat)
  | delNode (list node : Nat)
  | rotate (list : Nat)
  | duplicate (list : Nat) (room : Bool) (nodes : List Nat)

/-! ## The code -/

/-- All lists of the program, in the order they were made. -/
structure World (V : Type) where
  heap : Heap V
  lists : List (Alist V)

def World.empty : World V := { heap := { node := fun _ => none, freed := [] }, lists := [] }

/-- One of the functions that change a list is called. -/
def World.call (w : World V) (i : Nat)
    (f : Heap V → Alist V → Option (Heap V × Alist V)) : Option (World V) := do
  let list ← w.lists[i]?
  let (h, list) ← f w.heap list
  some { heap := h, lists := w.lists.set i list }

def World.step (w : World V) : Op V → Option (World V)
  | .create => some { w with lists := w.lists ++ [listCreate] }
  | .setMethods i dup free matchMethod =>
    w.call i fun h list =>
      some (h, { list with dup := dup, free := free, matchMethod := matchMethod })
  | .addNodeHead i value node =>
    w.call i fun h list => (listAddNodeHead h list value node).map fun r => (r.1, r.2.1)
  | .addNodeTail i value node =>
    w.call i fun h list => (listAddNodeTail h list value node).map fun r => (r.1, r.2.1)
  | .insertNode i old_node value after node =>
    w.call i fun h list =>
      (listInsertNode h list old_node value after node).map fun r => (r.1, r.2.1)
  | .delNode i node => w.call i fun h list => listDelNode h list node
  | .rotate i => w.call i listRotate
  | .duplicate i room nodes => do
    let list ← w.lists[i]?
    let (h, copy) ← listDup w.heap list room nodes
    some { heap := h, lists := w.lists ++ copy.toList }

def World.run (w : World V) : List (Op V) → Option (World V)
  | [] => some w
  | op :: ops => do (← w.step op).run ops

/-! ## The sequences -/

/-- A new node beside another one. -/
def insertBeside (old_node : Nat) (after : Bool) (new : Nat × V) (xs : List (Nat × V)) :
    List (Nat × V) :=
  xs.flatMap fun x =>
    if x.1 = old_node then (if after then [x, new] else [new, x]) else [x]

/-- What an operation makes of the sequences. -/
def Op.expected (s : List (Seq V)) : Op V → List (Seq V)
  | .create => s ++ [⟨none, []⟩]
  | .setMethods i dup _ _ => s.modify i fun q => { q with dup := dup }
  | .addNodeHead i value node =>
    s.modify i fun q => { q with nodes := (node.map (·, value)).toList ++ q.nodes }
  | .addNodeTail i value node =>
    s.modify i fun q => { q with nodes := q.nodes ++ (node.map (·, value)).toList }
  | .insertNode i old_node value after node =>
    match node with
    | none => s
    | some node =>
      s.modify i fun q => { q with nodes := insertBeside old_node after (node, value) q.nodes }
  | .delNode i node => s.modify i fun q => { q with nodes := q.nodes.filter (·.1 ≠ node) }
  | .rotate i => s.modify i fun q => { q with nodes := q.nodes.getLast?.toList ++ q.nodes.dropLast }
  | .duplicate i room nodes =>
    match s[i]? with
    | none => s
    | some q =>
      if room then
        match copied q.dup q.nodes nodes with
        | some ys => s ++ [{ q with nodes := ys }]
        | none => s
      else s

/-- There is a node at this address. -/
def Taken (s : List (Seq V)) (node : Nat) : Prop := ∃ q ∈ s, node ∈ ids q.nodes

/-- The call is one that the functions allow. -/
def Op.Allowed (s : List (Seq V)) : Op V → Prop
  | .create => True
  | .setMethods i _ _ _ => i < s.length
  | .addNodeHead i _ node => i < s.length ∧ ∀ n, node = some n → ¬ Taken s n
  | .addNodeTail i _ node => i < s.length ∧ ∀ n, node = some n → ¬ Taken s n
  | .insertNode i old_node _ _ node =>
    (∃ q, s[i]? = some q ∧ old_node ∈ ids q.nodes) ∧ ∀ n, node = some n → ¬ Taken s n
  | .delNode i node => ∃ q, s[i]? = some q ∧ node ∈ ids q.nodes
  | .rotate i => i < s.length
  | .duplicate i _ nodes => i < s.length ∧ nodes.Nodup ∧ ∀ n ∈ nodes, ¬ Taken s n

/-- The sequences after some operations. -/
def expected (s : List (Seq V)) : List (Op V) → List (Seq V)
  | [] => s
  | op :: ops => expected (op.expected s) ops

/-- Each operation is allowed when it is called. -/
def AllAllowed (s : List (Seq V)) : List (Op V) → Prop
  | [] => True
  | op :: ops => op.Allowed s ∧ AllAllowed (op.expected s) ops

/-! ## What holds between them -/

/-- The lists in memory stand for the sequences, have no node in common, and all nodes in memory
are theirs. -/
structure Stands (w : World V) (s : List (Seq V)) : Prop where
  length : w.lists.length = s.length
  mirror : ∀ {i : Nat} {list : Alist V} {q : Seq V}, w.lists[i]? = some list → s[i]? = some q →
    Mirror w.heap list q.nodes ∧ list.dup = q.dup
  apart : ∀ {i j : Nat} {q r : Seq V}, s[i]? = some q → s[j]? = some r → i ≠ j →
    ∀ a ∈ ids q.nodes, a ∉ ids r.nodes
  taken : ∀ {a : Nat}, w.heap.node a ≠ none → Taken s a

variable {w : World V} {s : List (Seq V)}

theorem Stands.empty : Stands (World.empty : World V) [] :=
  ⟨rfl, fun h _ => (nomatch h), fun h _ _ => (nomatch h), fun h => absurd rfl h⟩

theorem Stands.free (hs : Stands w s) {a : Nat} (ha : ¬ Taken s a) : w.heap.node a = none := by
  by_contra hne
  exact ha (hs.taken hne)

theorem Stands.get (hs : Stands w s) {i : Nat} {q : Seq V} (hq : s[i]? = some q) :
    ∃ list, w.lists[i]? = some list ∧ Mirror w.heap list q.nodes ∧ list.dup = q.dup := by
  obtain ⟨hi, -⟩ := List.getElem?_eq_some_iff.mp hq
  have hl : w.lists[i]? = some (w.lists.get ⟨i, by rw [hs.length]; exact hi⟩) :=
    List.getElem?_eq_getElem _
  exact ⟨_, hl, hs.mirror hl hq⟩

theorem modify_eq {i : Nat} {q : Seq V} (hq : s[i]? = some q) (f : Seq V → Seq V) :
    s.modify i f = s.set i (f q) := by
  rw [List.modify_eq_set_getElem?, hq]
  rfl

theorem getElem?_set_cases {α : Type} {l : List α} {i j : Nat} {a b : α}
    (h : (l.set i a)[j]? = some b) : i = j ∧ b = a ∨ i ≠ j ∧ l[j]? = some b := by
  by_cases hij : i = j
  · subst hij
    rw [List.getElem?_set_self'] at h
    obtain ⟨c, -, rfl⟩ := Option.map_eq_some_iff.mp h
    exact .inl ⟨rfl, rfl⟩
  · rw [List.getElem?_set_ne hij] at h
    exact .inr ⟨hij, h⟩

/-- One list's nodes change, and nothing else in memory. -/
theorem Stands.turn (hs : Stands w s) {i : Nat} {q : Seq V} (hq : s[i]? = some q) {h' : Heap V}
    {list' : Alist V} {ys : List (Nat × V)} {dup : Option (V → Option V)}
    (hm : Mirror h' list' ys) (ht : Turned w.heap h' q.nodes ys) (hdup : list'.dup = dup)
    (hnew : ∀ a ∈ ids ys, a ∉ ids q.nodes → ¬ Taken s a) :
    Stands { heap := h', lists := w.lists.set i list' } (s.set i ⟨dup, ys⟩) := by
  -- the nodes of another list are neither among the old nodes nor among the new ones
  have hother : ∀ {j r}, i ≠ j → s[j]? = some r → ∀ a ∈ ids r.nodes,
      a ∉ ids q.nodes ∧ a ∉ ids ys := by
    intro j r hij hr a ha
    have hnq : a ∉ ids q.nodes := hs.apart hr hq (Ne.symm hij) a ha
    exact ⟨hnq, fun hy => hnew a hy hnq ⟨r, List.mem_of_getElem? hr, ha⟩⟩
  refine ⟨by simp [hs.length], ?_, ?_, ?_⟩
  · intro j list r hl hr
    rcases getElem?_set_cases hr with ⟨rfl, rfl⟩ | ⟨hij, hr⟩
    · rcases getElem?_set_cases hl with ⟨-, rfl⟩ | ⟨hii, -⟩
      · exact ⟨hm, hdup⟩
      · exact absurd rfl hii
    · rw [List.getElem?_set_ne hij] at hl
      obtain ⟨hmir, hd⟩ := hs.mirror hl hr
      refine ⟨⟨hmir.seg.congr fun a ha => ?_, hmir.nodup, hmir.head, hmir.tail, hmir.len⟩, hd⟩
      obtain ⟨hnq, hny⟩ := hother hij hr a ha
      exact ht.kept a hnq hny
  · intro j k r t hr ht' hjk a ha
    rcases getElem?_set_cases hr with ⟨rfl, rfl⟩ | ⟨hij, hr⟩
    · rcases getElem?_set_cases ht' with ⟨rfl, -⟩ | ⟨hik, ht'⟩
      · exact absurd rfl hjk
      · exact fun hat => (hother hik ht' a hat).2 ha
    · rcases getElem?_set_cases ht' with ⟨rfl, rfl⟩ | ⟨hik, ht'⟩
      · exact (hother hij hr a ha).2
      · exact hs.apart hr ht' hjk a ha
  · intro a ha
    obtain ⟨hi, -⟩ := List.getElem?_eq_some_iff.mp hq
    have hmem : (⟨dup, ys⟩ : Seq V) ∈ s.set i ⟨dup, ys⟩ := List.mem_set hi _
    by_cases hy : a ∈ ids ys
    · exact ⟨_, hmem, hy⟩
    · by_cases hx : a ∈ ids q.nodes
      · exact absurd (ht.gone a hx hy) ha
      · rw [ht.kept a hx hy] at ha
        obtain ⟨r, hr, har⟩ := hs.taken ha
        obtain ⟨j, hj⟩ := List.mem_iff_getElem?.mp hr
        have hij : i ≠ j := by
          rintro rfl
          rw [hq] at hj
          cases hj
          exact hx har
        refine ⟨r, List.mem_of_getElem? (i := j) ?_, har⟩
        rw [List.getElem?_set_ne hij]
        exact hj

/-- A call keeps what the lists stand for when the function makes `ys` of the nodes. -/
theorem Stands.call (hs : Stands w s) {i : Nat} {q : Seq V} (hq : s[i]? = some q)
    {f : Heap V → Alist V → Option (Heap V × Alist V)} {ys : List (Nat × V)}
    {dup : Option (V → Option V)} (hnew : ∀ a ∈ ids ys, a ∉ ids q.nodes → ¬ Taken s a)
    (hf : ∀ list, Mirror w.heap list q.nodes → list.dup = q.dup →
      ∃ h' list', f w.heap list = some (h', list') ∧ Mirror h' list' ys ∧
        Turned w.heap h' q.nodes ys ∧ list'.dup = dup) :
    ∃ w', w.call i f = some w' ∧ Stands w' (s.set i ⟨dup, ys⟩) := by
  obtain ⟨list, hl, hm, hd⟩ := hs.get hq
  obtain ⟨h', list', hrun, hm', ht, hdup⟩ := hf list hm hd
  refine ⟨_, ?_, hs.turn hq hm' ht hdup hnew⟩
  rw [World.call, hl]
  simp only [Option.bind_eq_bind, Option.bind_some, hrun]

theorem Turned.refl (h : Heap V) (xs : List (Nat × V)) : Turned h h xs xs :=
  ⟨fun _ ha hna => absurd ha hna, fun _ _ _ => rfl⟩

theorem exists_get {i : Nat} (hi : i < s.length) : ∃ q, s[i]? = some q :=
  ⟨s[i], List.getElem?_eq_getElem hi⟩

theorem addNodeHead_stands (hs : Stands w s) {i : Nat} (value : V) (node : Option Nat)
    (hi : i < s.length) (hfree : ∀ n, node = some n → ¬ Taken s n) :
    ∃ w', w.step (.addNodeHead i value node) = some w' ∧
      Stands w' (Op.expected s (.addNodeHead i value node)) := by
  obtain ⟨q, hq⟩ := exists_get hi
  rw [World.step, Op.expected, modify_eq hq]
  refine hs.call hq ?_ ?_
  · intro a ha hna
    rw [ids, List.map_append, List.mem_append] at ha
    rcases ha with ha | ha
    · obtain ⟨n, rfl⟩ : ∃ n, node = some n := by
        cases node with
        | none => simp at ha
        | some n => exact ⟨n, rfl⟩
      obtain rfl : a = n := by simpa using ha
      exact hfree a rfl
    · exact absurd ha hna
  · intro list hm hd
    cases node with
    | none => exact ⟨w.heap, list, rfl, hm, Turned.refl _ _, hd⟩
    | some n =>
        obtain ⟨h', list', hrun, hm', ht, hsame⟩ := listAddNodeHead_spec hm (hs.free (hfree n rfl)) value
        exact ⟨h', list', by rw [hrun]; rfl, hm', ht, hsame.1.trans hd⟩

theorem addNodeTail_stands (hs : Stands w s) {i : Nat} (value : V) (node : Option Nat)
    (hi : i < s.length) (hfree : ∀ n, node = some n → ¬ Taken s n) :
    ∃ w', w.step (.addNodeTail i value node) = some w' ∧
      Stands w' (Op.expected s (.addNodeTail i value node)) := by
  obtain ⟨q, hq⟩ := exists_get hi
  rw [World.step, Op.expected, modify_eq hq]
  refine hs.call hq ?_ ?_
  · intro a ha hna
    rw [ids, List.map_append, List.mem_append] at ha
    rcases ha with ha | ha
    · exact absurd ha hna
    · obtain ⟨n, rfl⟩ : ∃ n, node = some n := by
        cases node with
        | none => simp at ha
        | some n => exact ⟨n, rfl⟩
      obtain rfl : a = n := by simpa using ha
      exact hfree a rfl
  · intro list hm hd
    cases node with
    | none =>
        refine ⟨w.heap, list, rfl, ?_, ?_, hd⟩
        · simpa using hm
        · simpa using Turned.refl w.heap q.nodes
    | some n =>
        obtain ⟨h', list', hrun, hm', ht, hsame⟩ := listAddNodeTail_spec hm (hs.free (hfree n rfl)) value
        exact ⟨h', list', by rw [hrun]; rfl, hm', ht, hsame.1.trans hd⟩

/-- In a list without repetition the new node is put beside one node. -/
theorem insertBeside_eq {xs ys : List (Nat × V)} {x : Nat × V} (hnd : (ids (xs ++ x :: ys)).Nodup)
    (after : Bool) (new : Nat × V) :
    insertBeside x.1 after new (xs ++ x :: ys) =
      xs ++ (if after then [x, new] else [new, x]) ++ ys := by
  obtain ⟨-, hx⟩ := nodup_middle.mp hnd
  have hne : ∀ {zs : List (Nat × V)}, (∀ z ∈ zs, z ∈ xs ++ ys) →
      (zs.flatMap fun z =>
        if z.1 = x.1 then (if after then [z, new] else [new, z]) else [z]) = zs := by
    intro zs hz
    induction zs with
    | nil => rfl
    | cons z zs ih =>
        have hzx : z.1 ≠ x.1 := fun he => hx (he ▸ List.mem_map_of_mem (hz z List.mem_cons_self))
        rw [List.flatMap_cons, if_neg hzx, ih fun y hy => hz y (List.mem_cons_of_mem _ hy)]
        rfl
  rw [insertBeside, List.flatMap_append, List.flatMap_cons, if_pos rfl,
    hne (fun z hz => List.mem_append_left _ hz), hne (fun z hz => List.mem_append_right _ hz),
    List.append_assoc]

theorem insertNode_stands (hs : Stands w s) {i old_node : Nat} (value : V) (after : Bool)
    (node : Option Nat) {q : Seq V} (hq : s[i]? = some q) (hold : old_node ∈ ids q.nodes)
    (hfree : ∀ n, node = some n → ¬ Taken s n) :
    ∃ w', w.step (.insertNode i old_node value after node) = some w' ∧
      Stands w' (Op.expected s (.insertNode i old_node value after node)) := by
  cases node with
  | none =>
      obtain ⟨hi, rfl⟩ := List.getElem?_eq_some_iff.mp hq
      have hsame : s.set i ⟨s[i].dup, s[i].nodes⟩ = s := List.set_getElem_self hi
      rw [World.step]
      show ∃ w', _ ∧ Stands w' s
      rw [← hsame]
      exact hs.call hq (fun a ha hna => absurd ha hna)
        (fun list hm hd => ⟨w.heap, list, rfl, hm, Turned.refl _ _, hd⟩)
  | some n =>
      obtain ⟨x, hx, rfl⟩ := List.mem_map.mp hold
      obtain ⟨l, r, hsplit⟩ := List.append_of_mem hx
      have hfree' := hfree n rfl
      rw [World.step, Op.expected, modify_eq hq]
      refine hs.call hq ?_ ?_
      · intro a ha hna
        obtain ⟨z, hz, rfl⟩ := List.mem_map.mp ha
        obtain ⟨y, hy, hzy⟩ := List.mem_flatMap.mp hz
        have hz' : z = y ∨ z = (n, value) := by
          split at hzy
          · split at hzy <;> simp at hzy <;> tauto
          · exact .inl (List.mem_singleton.mp hzy)
        rcases hz' with rfl | rfl
        · exact absurd (List.mem_map_of_mem hy) hna
        · exact hfree'
      · intro list hm hd
        have hnd := hm.nodup
        rw [hsplit] at hm hnd ⊢
        rw [insertBeside_eq hnd]
        cases after with
        | true =>
            obtain ⟨h', list', hrun, hm', ht, hsame⟩ := listInsertNode_after hm (hs.free hfree') value
            simp only [if_true, List.append_assoc]
            exact ⟨h', list', by rw [hrun]; rfl, hm', ht, hsame.1.trans hd⟩
        | false =>
            obtain ⟨h', list', hrun, hm', ht, hsame⟩ :=
              listInsertNode_before hm (hs.free hfree') value
            simp only [Bool.false_eq_true, if_false, List.append_assoc]
            exact ⟨h', list', by rw [hrun]; rfl, hm', ht, hsame.1.trans hd⟩

theorem filter_middle {xs ys : List (Nat × V)} {x : Nat × V} (hnd : (ids (xs ++ x :: ys)).Nodup) :
    (xs ++ x :: ys).filter (·.1 ≠ x.1) = xs ++ ys := by
  obtain ⟨-, hx⟩ := nodup_middle.mp hnd
  have hall : ∀ z ∈ xs ++ ys, decide (z.1 ≠ x.1) = true := by
    intro z hz
    have hne : z.1 ≠ x.1 := fun he => hx (he ▸ List.mem_map_of_mem hz)
    simpa using hne
  rw [List.filter_append, List.filter_cons_of_neg (by simp), ← List.filter_append,
    List.filter_eq_self.mpr hall]

theorem delNode_stands (hs : Stands w s) {i node : Nat} {q : Seq V} (hq : s[i]? = some q)
    (hnode : node ∈ ids q.nodes) :
    ∃ w', w.step (.delNode i node) = some w' ∧ Stands w' (Op.expected s (.delNode i node)) := by
  obtain ⟨x, hx, rfl⟩ := List.mem_map.mp hnode
  obtain ⟨l, r, hsplit⟩ := List.append_of_mem hx
  rw [World.step, Op.expected, modify_eq hq]
  refine hs.call hq ?_ ?_
  · intro a ha hna
    obtain ⟨z, hz, rfl⟩ := List.mem_map.mp ha
    exact absurd (List.mem_map_of_mem (List.mem_of_mem_filter hz)) hna
  · intro list hm hd
    rw [hsplit] at hm ⊢
    obtain ⟨h', list', hrun, hm', ht, hsame, -⟩ := listDelNode_spec hm
    rw [filter_middle hm.nodup]
    exact ⟨h', list', hrun, hm', ht, hsame.1.trans hd⟩

theorem rotate_stands (hs : Stands w s) {i : Nat} (hi : i < s.length) :
    ∃ w', w.step (.rotate i) = some w' ∧ Stands w' (Op.expected s (.rotate i)) := by
  obtain ⟨q, hq⟩ := exists_get hi
  rw [World.step, Op.expected, modify_eq hq]
  rcases List.eq_nil_or_concat q.nodes with hnil | ⟨xs, x, hcat⟩
  · refine hs.call hq ?_ ?_
    · intro a ha
      rw [hnil] at ha
      contradiction
    · intro list hm hd
      rw [hnil] at hm ⊢
      exact ⟨w.heap, list, listRotate_nil hm, hm, Turned.refl _ _, hd⟩
  · rw [List.concat_eq_append] at hcat
    have hnodes : q.nodes.getLast?.toList ++ q.nodes.dropLast = x :: xs := by
      rw [hcat]
      simp
    rw [hnodes]
    refine hs.call hq ?_ ?_
    · intro a ha hna
      rw [hcat] at hna
      exact absurd (by simp [ids] at ha ⊢; tauto) hna
    · intro list hm hd
      rw [hcat] at hm ⊢
      obtain ⟨h', list', hrun, hm', ht, hsame⟩ := listRotate_concat hm
      exact ⟨h', list', hrun, hm', ht, hsame.1.trans hd⟩

theorem setMethods_stands (hs : Stands w s) {i : Nat} (dup : Option (V → Option V)) (free : Bool)
    (matchMethod : Option (V → V → Bool)) (hi : i < s.length) :
    ∃ w', w.step (.setMethods i dup free matchMethod) = some w' ∧
      Stands w' (Op.expected s (.setMethods i dup free matchMethod)) := by
  obtain ⟨q, hq⟩ := exists_get hi
  rw [World.step, Op.expected, modify_eq hq]
  refine hs.call hq (fun a ha hna => absurd ha hna) ?_
  intro list hm _
  exact ⟨w.heap, _, rfl, ⟨hm.seg, hm.nodup, hm.head, hm.tail, hm.len⟩, Turned.refl _ _, rfl⟩

/-- Another list is made, of new nodes. -/
theorem Stands.add (hs : Stands w s) {h' : Heap V} {copy : Alist V} {ys : List (Nat × V)}
    (hm : Mirror h' copy ys) (ht : Turned w.heap h' [] ys) (hnew : ∀ a ∈ ids ys, ¬ Taken s a) :
    Stands { heap := h', lists := w.lists ++ [copy] } (s ++ [⟨copy.dup, ys⟩]) := by
  have hkept : ∀ {j : Nat} {r : Seq V}, s[j]? = some r → ∀ a ∈ ids r.nodes, a ∉ ids ys := by
    intro j r hr a ha hy
    exact hnew a hy ⟨r, List.mem_of_getElem? hr, ha⟩
  have hcases : ∀ {α : Type} {l : List α} {a b : α} {j : Nat}, (l ++ [a])[j]? = some b →
      l[j]? = some b ∧ j < l.length ∨ j = l.length ∧ b = a := by
    intro α l a b j h
    rcases Nat.lt_trichotomy j l.length with hlt | rfl | hgt
    · rw [List.getElem?_append_left hlt] at h
      exact .inl ⟨h, hlt⟩
    · rw [List.getElem?_concat_length, Option.some.injEq] at h
      exact .inr ⟨rfl, h.symm⟩
    · rw [List.getElem?_eq_none (by simp; omega)] at h
      cases h
  refine ⟨by simp [hs.length], ?_, ?_, ?_⟩
  · intro j list r hl hr
    rcases hcases hr with ⟨hr, hlt⟩ | ⟨rfl, rfl⟩
    · rw [List.getElem?_append_left (by rw [hs.length]; exact hlt)] at hl
      obtain ⟨hmir, hd⟩ := hs.mirror hl hr
      refine ⟨⟨hmir.seg.congr fun a ha => ?_, hmir.nodup, hmir.head, hmir.tail, hmir.len⟩, hd⟩
      exact ht.kept a List.not_mem_nil (hkept hr a ha)
    · rw [← hs.length, List.getElem?_concat_length, Option.some.injEq] at hl
      subst hl
      exact ⟨hm, rfl⟩
  · intro j k r t hr ht' hjk a ha
    rcases hcases hr with ⟨hr, -⟩ | ⟨rfl, rfl⟩
    · rcases hcases ht' with ⟨ht', -⟩ | ⟨rfl, rfl⟩
      · exact hs.apart hr ht' hjk a ha
      · exact hkept hr a ha
    · rcases hcases ht' with ⟨ht', -⟩ | ⟨rfl, rfl⟩
      · exact fun hat => hkept ht' a hat ha
      · exact absurd rfl hjk
  · intro a ha
    by_cases hy : a ∈ ids ys
    · exact ⟨_, List.mem_append_right _ (List.mem_singleton_self _), hy⟩
    · rw [ht.kept a List.not_mem_nil hy] at ha
      obtain ⟨r, hr, har⟩ := hs.taken ha
      exact ⟨r, List.mem_append_left _ hr, har⟩

theorem create_stands (hs : Stands w s) :
    ∃ w', w.step .create = some w' ∧ Stands w' (Op.expected s .create) :=
  ⟨_, rfl, hs.add ⟨seg_nil, List.nodup_nil, rfl, rfl, rfl⟩ (Turned.refl _ _)
    (fun _ ha => absurd ha List.not_mem_nil)⟩

/-- The nodes are all as they were. -/
theorem Stands.congr (hs : Stands w s) {h' : Heap V} (ht : Turned w.heap h' [] []) :
    Stands { w with heap := h' } s := by
  have hsame : h'.node = w.heap.node :=
    funext fun a => ht.kept a List.not_mem_nil List.not_mem_nil
  refine ⟨hs.length, ?_, hs.apart, ?_⟩
  · intro i list q hl hq
    obtain ⟨hm, hd⟩ := hs.mirror hl hq
    exact ⟨⟨hsame ▸ hm.seg, hm.nodup, hm.head, hm.tail, hm.len⟩, hd⟩
  · intro a ha
    exact hs.taken (hsame ▸ ha)

theorem duplicate_stands (hs : Stands w s) {i : Nat} (room : Bool) (nodes : List Nat)
    (hi : i < s.length) (hnd : nodes.Nodup) (hfree : ∀ n ∈ nodes, ¬ Taken s n) :
    ∃ w', w.step (.duplicate i room nodes) = some w' ∧
      Stands w' (Op.expected s (.duplicate i room nodes)) := by
  obtain ⟨q, hq⟩ := exists_get hi
  obtain ⟨list, hl, hm, hd⟩ := hs.get hq
  rw [World.step, Op.expected, hl, hq]
  simp only [Option.bind_eq_bind, Option.bind_some]
  cases room with
  | false => exact ⟨_, rfl, by simpa using hs⟩
  | true =>
      obtain ⟨h', result, hrun, hdup⟩ := listDup_spec hm (fun n hn => hs.free (hfree n hn)) hnd
      rw [hd] at hdup
      rw [hrun]
      refine ⟨_, rfl, ?_⟩
      simp only [if_true]
      cases hc : copied q.dup q.nodes nodes with
      | none =>
          rw [hc] at hdup
          obtain ⟨rfl, ht⟩ := hdup
          simpa using hs.congr ht
      | some ys =>
          rw [hc] at hdup
          obtain ⟨copy', rfl, hm', ht, hsame⟩ := hdup
          have hcd : copy'.dup = q.dup := hsame.1
          have hadd := hs.add hm' ht (fun a ha => hfree a ((copied_ids hc).1.subset ha))
          rw [hcd] at hadd
          exact hadd

theorem step_stands (hs : Stands w s) {op : Op V} (ha : op.Allowed s) :
    ∃ w', w.step op = some w' ∧ Stands w' (op.expected s) := by
  cases op with
  | create => exact create_stands hs
  | setMethods i dup free matchMethod => exact setMethods_stands hs dup free matchMethod ha
  | addNodeHead i value node => exact addNodeHead_stands hs value node ha.1 ha.2
  | addNodeTail i value node => exact addNodeTail_stands hs value node ha.1 ha.2
  | insertNode i old_node value after node =>
      obtain ⟨⟨q, hq, hold⟩, hfree⟩ := ha
      exact insertNode_stands hs value after node hq hold hfree
  | delNode i node =>
      obtain ⟨q, hq, hnode⟩ := ha
      exact delNode_stands hs hq hnode
  | rotate i => exact rotate_stands hs ha
  | duplicate i room nodes => exact duplicate_stands hs room nodes ha.1 ha.2.1 ha.2.2

theorem run_stands (hs : Stands w s) {ops : List (Op V)} (ha : AllAllowed s ops) :
    ∃ w', w.run ops = some w' ∧ Stands w' (expected s ops) := by
  induction ops generalizing w s with
  | nil => exact ⟨w, rfl, hs⟩
  | cons op ops ih =>
      obtain ⟨w₁, hstep, hs₁⟩ := step_stands hs ha.1
      obtain ⟨w₂, hrun, hs₂⟩ := ih hs₁ ha.2
      exact ⟨w₂, by rw [World.run, hstep]; exact hrun, hs₂⟩

/-! ## Walking through a list -/

/-- What a walk does with the node it has just come to. -/
def visit (delete : Nat → Bool) (h : Heap V) (list : Alist V) (node : Nat) :
    Option (Heap V × Alist V) :=
  if delete node then listDelNode h list node else some (h, list)

/-- A walk that deletes some of the nodes it comes to: `while((node = listNext(&iter)) != NULL)`
with `listDelNode(list, node)` for the chosen ones. -/
def walk (delete : Nat → Bool) : Nat → Heap V → Alist V → ListIter →
    Option (List Nat × Heap V × Alist V)
  | 0, _, _, _ => none
  | fuel + 1, h, list, iter => do
    let (node, iter) ← listNext h iter
    match node with
    | none => some ([], h, list)
    | some node =>
      let (h, list) ← visit delete h list node
      let (seen, h, list) ← walk delete fuel h list iter
      some (node :: seen, h, list)

variable {h : Heap V} {list : Alist V}

/-- The node a walk has come to is deleted or not; it has gone on already. -/
theorem visit_spec {xs ys : List (Nat × V)} {x : Nat × V} (delete : Nat → Bool)
    (hm : Mirror h list (xs ++ x :: ys)) :
    ∃ h' list', visit delete h list x.1 = some (h', list') ∧
      Mirror h' list' (xs ++ [x].filter (fun z => !delete z.1) ++ ys) ∧
      Turned h h' (xs ++ x :: ys) (xs ++ [x].filter (fun z => !delete z.1) ++ ys) ∧
      list'.dup = list.dup := by
  rw [visit]
  cases hd : delete x.1 with
  | true =>
      obtain ⟨h', list', hrun, hm', ht, hsame, -⟩ := listDelNode_spec hm
      rw [if_pos rfl, List.filter_cons_of_neg (by simp [hd]), List.filter_nil, List.append_nil]
      exact ⟨h', list', hrun, hm', ht, hsame.1⟩
  | false =>
      rw [if_neg (by simp), List.filter_cons_of_pos (by simp [hd]), List.filter_nil,
        List.append_assoc]
      exact ⟨h, list, rfl, hm, Turned.refl _ _, rfl⟩

theorem Turned.trans_sublist {h₁ h₂ : Heap V} {xs ys zs : List (Nat × V)}
    (ht₁ : Turned h h₁ xs ys) (ht₂ : Turned h₁ h₂ ys zs) (hsub : ys.Sublist xs) :
    Turned h h₂ xs zs :=
  ht₁.trans ht₂ fun _ ha hna => absurd ((hsub.map Prod.fst).subset ha) hna

theorem walk_head {kept rest : List (Nat × V)} (delete : Nat → Bool) {fuel : Nat}
    (hm : Mirror h list (kept ++ rest)) (hfuel : rest.length < fuel) :
    ∃ h' list', walk delete fuel h list ⟨first rest none, .startHead⟩ =
        some (ids rest, h', list') ∧
      Mirror h' list' (kept ++ rest.filter fun z => !delete z.1) ∧
      Turned h h' (kept ++ rest) (kept ++ rest.filter fun z => !delete z.1) ∧
      list'.dup = list.dup := by
  induction rest generalizing h list kept fuel with
  | nil =>
      obtain ⟨fuel, rfl⟩ : ∃ k, fuel = k + 1 := ⟨fuel - 1, by simp at hfuel; omega⟩
      exact ⟨h, list, rfl, hm, Turned.refl _ _, rfl⟩
  | cons x rest ih =>
      obtain ⟨fuel, rfl⟩ : ∃ k, fuel = k + 1 := ⟨fuel - 1, by simp at hfuel; omega⟩
      have hnext := listNext_head (seg_append.mp hm.seg).2
      obtain ⟨h₁, list₁, hvisit, hm₁, ht₁, hd₁⟩ := visit_spec delete hm
      obtain ⟨h₂, list₂, hrun, hm₂, ht₂, hd₂⟩ := ih hm₁
        (show rest.length < fuel by simp at hfuel; omega)
      have hsub : (kept ++ [x].filter (fun z => !delete z.1) ++ rest).Sublist
          (kept ++ x :: rest) := by
        rw [List.append_assoc]
        exact (List.filter_sublist.append_right rest).append_left kept
      have hfilter : kept ++ [x].filter (fun z => !delete z.1) ++
            rest.filter (fun z => !delete z.1) =
          kept ++ (x :: rest).filter fun z => !delete z.1 := by
        rw [List.append_assoc, ← List.filter_append]
        rfl
      rw [hfilter] at hm₂ ht₂
      refine ⟨h₂, list₂, ?_, hm₂, ht₁.trans_sublist ht₂ hsub, hd₂.trans hd₁⟩
      rw [walk, first_cons, hnext]
      simp only [Option.bind_eq_bind, Option.bind_some, hvisit, hrun]
      rfl

theorem walk_tail {rest kept : List (Nat × V)} (delete : Nat → Bool) {fuel : Nat}
    (hm : Mirror h list (rest ++ kept)) (hfuel : rest.length < fuel) :
    ∃ h' list', walk delete fuel h list ⟨last none rest, .startTail⟩ =
        some ((ids rest).reverse, h', list') ∧
      Mirror h' list' ((rest.filter fun z => !delete z.1) ++ kept) ∧
      Turned h h' (rest ++ kept) ((rest.filter fun z => !delete z.1) ++ kept) ∧
      list'.dup = list.dup := by
  induction rest using List.reverseRecOn generalizing h list kept fuel with
  | nil =>
      obtain ⟨fuel, rfl⟩ : ∃ k, fuel = k + 1 := ⟨fuel - 1, by simp at hfuel; omega⟩
      exact ⟨h, list, rfl, hm, Turned.refl _ _, rfl⟩
  | append_singleton rest x ih =>
      obtain ⟨fuel, rfl⟩ : ∃ k, fuel = k + 1 := ⟨fuel - 1, by simp at hfuel; omega⟩
      have hnext := listNext_tail (seg_append.mp hm.seg).1
      rw [List.append_assoc, List.singleton_append] at hm
      obtain ⟨h₁, list₁, hvisit, hm₁, ht₁, hd₁⟩ := visit_spec delete hm
      rw [List.append_assoc] at hm₁ ht₁
      obtain ⟨h₂, list₂, hrun, hm₂, ht₂, hd₂⟩ := ih hm₁
        (show rest.length < fuel by simp at hfuel; omega)
      have hsub : (rest ++ ([x].filter (fun z => !delete z.1) ++ kept)).Sublist
          (rest ++ x :: kept) :=
        (List.filter_sublist.append_right kept).append_left rest
      have hfilter : rest.filter (fun z => !delete z.1) ++
            ([x].filter (fun z => !delete z.1) ++ kept) =
          ((rest ++ [x]).filter fun z => !delete z.1) ++ kept := by
        rw [← List.append_assoc, ← List.filter_append]
      rw [hfilter] at hm₂ ht₂
      rw [List.append_assoc, List.singleton_append]
      refine ⟨h₂, list₂, ?_, hm₂, ht₁.trans_sublist ht₂ hsub, hd₂.trans hd₁⟩
      rw [walk, last_concat, hnext]
      simp only [Option.bind_eq_bind, Option.bind_some, hvisit, hrun]
      simp [ids]

/-! ## Lists refine sequences -/

/-- A list read in both directions: the nodes, with NULL at the ends, their values, how many
there are, and each of them by its index from either end. -/
structure Reads (h : Heap V) (list : Alist V) (xs : List (Nat × V)) : Prop where
  distinct : (ids xs).Nodup
  forward : Linked.Chain (fun a => (h.node a).map Cell.next) list.head (ids xs) none
  backward : Linked.Chain (fun a => (h.node a).map Cell.prev) list.tail (ids xs).reverse none
  value : ∀ x ∈ xs, (h.node x.1).map Cell.value = some x.2
  len : list.len = xs.length
  index : ∀ i < list.len, listIndex h list i = some (ids xs)[i]? ∧
    listIndex h list (i - list.len) = some (ids xs)[i]?

/-- All lists read as the sequences. -/
def AllRead (w : World V) (s : List (Seq V)) : Prop :=
  w.lists.length = s.length ∧ ∀ (i : Nat) (list : Alist V) (q : Seq V),
    w.lists[i]? = some list → s[i]? = some q → Reads w.heap list q.nodes

theorem Mirror.reads {xs : List (Nat × V)} (hm : Mirror h list xs) : Reads h list xs := by
  refine ⟨hm.nodup, ?_, ?_, ?_, hm.len, ?_⟩
  · rw [hm.head]
    exact hm.seg.forward
  · rw [hm.tail]
    exact hm.seg.backward
  · intro x hx
    obtain ⟨c, hc, hv⟩ := hm.seg.value hx
    rw [hc, Option.map_some, hv]
  · intro i hi
    rw [hm.len] at hi ⊢
    exact ⟨listIndex_ofNat hm i, listIndex_neg hm hi⟩

theorem Stands.allRead (hs : Stands w s) : AllRead w s :=
  ⟨hs.length, fun _ _ _ hl hq => (hs.mirror hl hq).1.reads⟩

/-- The nodes of a list in the order a walk comes to them. -/
def inOrder : Direction → List (Nat × V) → List Nat
  | .startHead, xs => ids xs
  | .startTail, xs => (ids xs).reverse

theorem walk_spec {xs : List (Nat × V)} (hm : Mirror h list xs) (direction : Direction)
    (delete : Nat → Bool) :
    ∃ h' list', walk delete (list.len + 1) h list (listGetIterator list direction) =
        some (inOrder direction xs, h', list') ∧
      Mirror h' list' (xs.filter fun z => !delete z.1) ∧
      Turned h h' xs (xs.filter fun z => !delete z.1) ∧ list'.dup = list.dup := by
  have hfuel : xs.length < list.len + 1 := by rw [hm.len]; exact Nat.lt_succ_self _
  cases direction with
  | startHead =>
      rw [listGetIterator, if_pos rfl, hm.head]
      exact @walk_head _ _ _ [] _ delete _ hm hfuel
  | startTail =>
      rw [listGetIterator, if_neg (by decide), hm.tail]
      have hwalk := @walk_tail _ _ _ _ [] delete _ (by rwa [List.append_nil]) hfuel
      rwa [List.append_nil, List.append_nil] at hwalk

/-- Whatever is called on the lists, they are the sequences expected: forwards, backwards, by
length and by index.  And a walk through any of them, in either direction, that deletes any of
the nodes it has just come to, comes to every node once, and leaves the others. -/
theorem adlist_refines (ops : List (Op V)) (ha : AllAllowed [] ops) :
    ∃ w, World.empty.run ops = some w ∧ AllRead w (expected [] ops) ∧
      ∀ (i : Nat) (list : Alist V) (q : Seq V), w.lists[i]? = some list →
        (expected [] ops)[i]? = some q → ∀ (direction : Direction) (delete : Nat → Bool),
        ∃ h' list', walk delete (list.len + 1) w.heap list (listGetIterator list direction) =
            some (inOrder direction q.nodes, h', list') ∧
          AllRead { heap := h', lists := w.lists.set i list' }
            ((expected [] ops).set i { q with nodes := q.nodes.filter fun z => !delete z.1 }) := by
  obtain ⟨w, hrun, hs⟩ := run_stands Stands.empty ha
  refine ⟨w, hrun, hs.allRead, ?_⟩
  intro i list q hl hq direction delete
  obtain ⟨hm, hd⟩ := hs.mirror hl hq
  obtain ⟨h', list', hwalk, hm', ht, hdup⟩ := walk_spec hm direction delete
  refine ⟨h', list', hwalk, (hs.turn hq hm' ht (hdup.trans hd) ?_).allRead⟩
  intro a ha' hna
  exact absurd ((List.filter_sublist.map Prod.fst).subset ha') hna

/-- Two lists, one the copy of the other, and a node address that is used twice. -/
def tour : List (Op Nat) :=
  [.create, .addNodeTail 0 7 (some 1), .addNodeHead 0 8 (some 2), .insertNode 0 1 9 true (some 3),
    .rotate 0, .duplicate 0 true [4, 5, 6], .delNode 0 2, .addNodeTail 0 5 (some 2)]

theorem adlist_refines_tour :
    expected [] tour = [⟨none, [(3, 9), (1, 7), (2, 5)]⟩, ⟨none, [(4, 9), (5, 8), (6, 7)]⟩] ∧
      ∃ w, World.empty.run tour = some w ∧ AllRead w (expected [] tour) := by
  refine ⟨rfl, ?_⟩
  obtain ⟨w, hrun, hread, -⟩ := adlist_refines tour (by
    simp [tour, AllAllowed, Op.Allowed, Op.expected, Taken, insertBeside, copied, dupValue])
  exact ⟨w, hrun, hread⟩

end RedisCore.Adlist
