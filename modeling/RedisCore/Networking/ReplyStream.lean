/-
# `RedisCore.Networking.ReplyStream` — nothing lost, duplicated or reordered

First the heap: every object has at least the references the reply list holds, a
placeholder is referenced by its one node only, and so an object that is appended to in
place is nowhere else.  Each function is then described by what it does to `chunks`.

Then the stream: what the socket has taken, followed by what is pending, is what the
client is owed.  A multibulk length that is not set yet is a hole on both sides.
-/
import RedisCore.Networking.Output
import Mathlib.Data.List.TakeDrop

namespace RedisCore

namespace Output

open HoleStream Clients CInt Decimal

variable {s s' : Out} {o : ObjId} {b : Bytes}

/-! ## The heap -/

/-- How often the reply list refers to an object. -/
def refs (reply : List Node) (o : ObjId) : Nat := (reply.map Node.value).count o

/-- What an address holds, given the references of the reply list: nothing that is
referred to is gone, a placeholder has its one reference there, and what is on the list
has a string. -/
def CellOk : Option Cell → Nat → Prop
  | none, k => k = 0
  | some ⟨n, none⟩, k => n = 1 ∧ k = 1
  | some ⟨n, some r⟩, k => 0 < n ∧ k ≤ n ∧ (0 < k → r.sds?.isSome = true)

/-- What holds of the heap and the list, and of the next free addresses. -/
structure HeapOk (heap : ObjId → Option Cell) (reply : List Node) (nextObj nextNode : Nat) :
    Prop where
  cells : ∀ o, CellOk (heap o) (refs reply o)
  fresh : ∀ o, nextObj ≤ o → heap o = none
  ids : (reply.map Node.id).Nodup
  idLt : ∀ ln ∈ reply, ln.id < nextNode

/-- What the object at an address spells. -/
def content (heap : ObjId → Option Cell) (o : ObjId) : Option Bytes :=
  match heap o with
  | some ⟨_, some r⟩ => some r.bytes
  | _ => none

/-- Nodes with what they spell; a placeholder spells nothing. -/
def view (heap : ObjId → Option Cell) (l : List Node) : List (Nat × Option Bytes) :=
  l.map (fun ln => (ln.id, content heap ln.value))

/-- The chunks of the reply list. -/
def chunks (s : Out) : List (Nat × Option Bytes) := view s.heap s.reply

variable {heap : ObjId → Option Cell} {reply reply' : List Node} {nextObj nextNode : Nat}
  {cell : Option Cell}

@[simp] theorem refs_nil (o : ObjId) : refs [] o = 0 := rfl

@[simp] theorem refs_cons (ln : Node) (l : List Node) (o : ObjId) :
    refs (ln :: l) o = refs l o + if ln.value = o then 1 else 0 := by
  simp [refs, List.count_cons]

@[simp] theorem refs_append (l m : List Node) (o : ObjId) :
    refs (l ++ m) o = refs l o + refs m o := by
  simp [refs]

@[simp] theorem view_append (heap : ObjId → Option Cell) (l m : List Node) :
    view heap (l ++ m) = view heap l ++ view heap m := List.map_append

@[simp] theorem view_cons (heap : ObjId → Option Cell) (ln : Node) (l : List Node) :
    view heap (ln :: l) = (ln.id, content heap ln.value) :: view heap l := rfl

theorem refs_pos {l : List Node} {ln : Node} (h : ln ∈ l) : 0 < refs l ln.value :=
  List.count_pos_iff.mpr (List.mem_map_of_mem h)

theorem value_ne {l : List Node} {ln : Node} (h : ln ∈ l) (hz : refs l o = 0) : ln.value ≠ o := by
  rintro rfl
  have := refs_pos h
  omega

theorem content_of_ne {x : ObjId} (h : x ≠ o) (heap : ObjId → Option Cell) (cell : Option Cell) :
    content (Function.update heap o cell) x = content heap x := by
  simp only [content, Function.update_of_ne h]

theorem content_self (heap : ObjId → Option Cell) (o : ObjId) (n : Nat) (r : Robj) :
    content (Function.update heap o (some ⟨n, some r⟩)) o = some r.bytes := by
  simp only [content, Function.update_self]

theorem content_of_heap {n : Nat} {r : Robj} (h : heap o = some ⟨n, some r⟩) :
    content heap o = some r.bytes := by
  simp only [content, h]

/-- Nodes that do not refer to the address see nothing of a change there. -/
theorem view_update {l : List Node} (hz : refs l o = 0) (heap : ObjId → Option Cell)
    (cell : Option Cell) : view (Function.update heap o cell) l = view heap l :=
  List.map_congr_left (fun _ hln => by rw [content_of_ne (value_ne hln hz)])

/-- Nor does anyone see a change that keeps what the object spells. -/
theorem view_update_same (l : List Node)
    (h : content (Function.update heap o cell) o = content heap o) :
    view (Function.update heap o cell) l = view heap l := by
  refine List.map_congr_left (fun ln _ => ?_)
  by_cases hx : ln.value = o
  · rw [hx, h]
  · rw [content_of_ne hx]

theorem HeapOk.fresh_refs (h : HeapOk heap reply nextObj nextNode) : refs reply nextObj = 0 := by
  have hc := h.cells nextObj
  rw [h.fresh _ (Nat.le_refl _)] at hc
  exact hc

theorem HeapOk.lt (h : HeapOk heap reply nextObj nextNode) {cell : Cell} (ho : heap o = some cell) :
    o < nextObj := by
  by_contra hge
  rw [h.fresh o (Nat.le_of_not_lt hge)] at ho
  exact absurd ho (by simp)

/-- Change one cell, and the references to it. -/
theorem HeapOk.update (h : HeapOk heap reply nextObj nextNode) {nextObj' nextNode' : Nat}
    (hno : nextObj ≤ nextObj') (ho : o < nextObj') (hc : CellOk cell (refs reply' o))
    (hrefs : ∀ x, x ≠ o → refs reply' x = refs reply x) (hids : (reply'.map Node.id).Nodup)
    (hlt : ∀ ln ∈ reply', ln.id < nextNode') :
    HeapOk (Function.update heap o cell) reply' nextObj' nextNode' := by
  refine ⟨fun x => ?_, fun x hx => ?_, hids, hlt⟩
  · by_cases hxo : x = o
    · rw [hxo, Function.update_self]
      exact hc
    · rw [Function.update_of_ne hxo, hrefs x hxo]
      exact h.cells x
  · have hxo : x ≠ o := fun hxo => absurd ho (Nat.not_lt.mpr (hxo ▸ hx))
    rw [Function.update_of_ne hxo]
    exact h.fresh x (Nat.le_trans hno hx)

/-- Change one cell, but no reference. -/
theorem HeapOk.setCell (h : HeapOk heap reply nextObj nextNode) (ho : o < nextObj)
    (hc : CellOk cell (refs reply o)) :
    HeapOk (Function.update heap o cell) reply nextObj nextNode :=
  h.update (Nat.le_refl _) ho hc (fun _ _ => rfl) h.ids h.idLt

/-- Add a node at the end, and with it a reference to its object. -/
theorem HeapOk.addNode (h : HeapOk heap reply nextObj nextNode) {nextObj' nextNode' id : Nat}
    (hno : nextObj ≤ nextObj') (ho : o < nextObj') (hc : CellOk cell (refs reply o + 1))
    (hnn : nextNode ≤ nextNode') (hid : id < nextNode') (hnew : id ∉ reply.map Node.id) :
    HeapOk (Function.update heap o cell) (reply ++ [⟨id, o⟩]) nextObj' nextNode' := by
  refine h.update hno ho (by simpa using hc) (fun x hx => ?_) ?_ (fun ln hln => ?_)
  · simp [Ne.symm hx]
  · rw [List.map_append]
    refine List.nodup_append.mpr ⟨h.ids, List.nodup_singleton _, fun a ha b hb hab => hnew ?_⟩
    rw [← show b = id from List.mem_singleton.mp hb, ← hab]
    exact ha
  · rcases List.mem_append.mp hln with hln | hln
    · exact Nat.lt_of_lt_of_le (h.idLt ln hln) hnn
    · rw [List.mem_singleton.mp hln]
      exact hid

theorem HeapOk.nextNode_new (h : HeapOk heap reply nextObj nextNode) :
    nextNode ∉ reply.map Node.id := by
  intro hmem
  obtain ⟨ln, hln, heq⟩ := List.mem_map.mp hmem
  have := h.idLt ln hln
  omega

/-- The cell after a `decrRefCount`. -/
def Cell.decr (cell : Cell) : Option Cell :=
  if cell.refcount = 1 then none else some { cell with refcount := cell.refcount - 1 }

theorem CellOk.pos {cell : Cell} {k : Nat} (h : CellOk (some cell) k) : 0 < cell.refcount := by
  obtain ⟨n, r⟩ := cell
  cases r with
  | none => exact h.1 ▸ Nat.one_pos
  | some r => exact h.1

theorem CellOk.decr {cell : Cell} {k : Nat} (h : CellOk (some cell) (k + 1)) :
    CellOk cell.decr k := by
  obtain ⟨n, r⟩ := cell
  cases r with
  | none =>
      have hn : n = 1 := h.1
      have hk : k + 1 = 1 := h.2
      simp only [Cell.decr, hn, if_true]
      show k = 0
      omega
  | some r =>
      obtain ⟨_, hle, hs⟩ := h
      simp only [Cell.decr]
      split
      · show k = 0
        omega
      · exact ⟨by omega, by omega, fun _ => hs (Nat.succ_pos k)⟩

theorem decrRefCount_eq {cell : Cell} (ho : s.heap o = some cell) (hpos : 0 < cell.refcount) :
    decrRefCount s o = some (s.setCell o cell.decr) := by
  simp only [decrRefCount, ho, Cell.decr]
  rw [if_neg (by omega)]
  split <;> rfl

/-- Giving up a reference does not change what the others read. -/
theorem content_decr {cell : Cell} (ho : heap o = some cell) (hk : cell.refcount ≠ 1) :
    content (Function.update heap o cell.decr) o = content heap o := by
  simp only [content, Function.update_self, ho, Cell.decr, if_neg hk]
  obtain ⟨n, r⟩ := cell
  cases r <;> rfl

/-- Take a node out of the list, and give its reference up. -/
theorem HeapOk.removeNode {before after : List Node} {ln : Node} {cell : Cell}
    (h : HeapOk heap (before ++ ln :: after) nextObj nextNode) (ho : heap ln.value = some cell) :
    HeapOk (Function.update heap ln.value cell.decr) (before ++ after) nextObj nextNode ∧
      view (Function.update heap ln.value cell.decr) (before ++ after)
        = view heap (before ++ after) := by
  have hc := h.cells ln.value
  rw [ho] at hc
  have hrefs : refs (before ++ ln :: after) ln.value = refs (before ++ after) ln.value + 1 := by
    simp only [refs_append, refs_cons, if_true]
    omega
  rw [hrefs] at hc
  have hsub : (before ++ after).Sublist (before ++ ln :: after) :=
    (List.Sublist.refl _).append (List.sublist_cons_self _ _)
  refine ⟨h.update (Nat.le_refl _) (h.lt ho) hc.decr (fun x hx => ?_)
    (h.ids.sublist (hsub.map _)) (fun n hn => h.idLt n (hsub.subset hn)), ?_⟩
  · simp [Ne.symm hx]
  · by_cases hone : cell.refcount = 1
    · have hz : refs (before ++ after) ln.value = 0 := by
        have hok := hc.decr
        rw [Cell.decr, if_pos hone] at hok
        exact hok
      exact view_update hz _ _
    · exact view_update_same _ (content_decr ho hone)

/-! ## What the functions do to the chunks -/

/-- The heap and the list of a client. -/
def Out.Ok (s : Out) : Prop := HeapOk s.heap s.reply s.nextObj s.nextNode

/-- What someone other than the reply list holds a reference to stays as it is, and
so do these references. -/
def Kept (s s' : Out) : Prop :=
  ∀ o cell, s.heap o = some cell → refs s.reply o < cell.refcount →
    ∃ cell', s'.heap o = some cell' ∧ cell'.obj = cell.obj ∧
      cell'.refcount + refs s.reply o = cell.refcount + refs s'.reply o

/-- A step on the reply list alone, and the chunks it leads to. -/
structure ListStep (s s' : Out) (cs : List (Nat × Option Bytes)) : Prop where
  ok : s'.Ok
  kept : Kept s s'
  conn : s'.conn = s.conn
  buf : s'.buf = s.buf
  sentlen : s'.sentlen = s.sentlen
  socket : s'.socket = s.socket
  chunks : chunks s' = cs

theorem kept_refl (s : Out) : Kept s s := fun _ cell ho _ => ⟨cell, ho, rfl, rfl⟩

/-- A step that writes one cell, in whatever way keeps the references of others. -/
theorem kept_update {s s' : Out} {o : ObjId} {cell : Option Cell}
    (hheap : s'.heap = Function.update s.heap o cell)
    (hrefs : ∀ x, x ≠ o → refs s'.reply x = refs s.reply x)
    (ho : ∀ old, s.heap o = some old → refs s.reply o < old.refcount →
      ∃ new, cell = some new ∧ new.obj = old.obj ∧
        new.refcount + refs s.reply o = old.refcount + refs s'.reply o) : Kept s s' := by
  intro x old hold hlt
  by_cases hx : x = o
  · subst hx
    obtain ⟨new, hnew, hobj, hcount⟩ := ho old hold hlt
    exact ⟨new, by rw [hheap, Function.update_self, hnew], hobj, hcount⟩
  · exact ⟨old, by rw [hheap, Function.update_of_ne hx, hold], rfl, by rw [hrefs x hx]⟩

theorem kept_trans {s₁ s₂ s₃ : Out} (h₁ : Kept s₁ s₂) (h₂ : Kept s₂ s₃) : Kept s₁ s₃ := by
  intro o cell ho hlt
  obtain ⟨cell₂, ho₂, hobj₂, hcount₂⟩ := h₁ o cell ho hlt
  obtain ⟨cell₃, ho₃, hobj₃, hcount₃⟩ := h₂ o cell₂ ho₂ (by omega)
  exact ⟨cell₃, ho₃, hobj₃.trans hobj₂, by omega⟩

/-- A new object of which the list knows nothing. -/
theorem createObject_spec (h : s.Ok) (r : Robj) :
    ListStep s (createObject s (some r)).1 (chunks s) := by
  have hz := h.fresh_refs
  refine ⟨?_, kept_update rfl (fun _ _ => rfl) (fun old hold _ => ?_), rfl, rfl, rfl, rfl,
    view_update hz _ _⟩
  swap
  · exact absurd (h.lt hold) (Nat.lt_irrefl _)
  refine h.update (Nat.le_succ _) (Nat.lt_succ_self _) ?_ (fun _ _ => rfl) h.ids h.idLt
  show CellOk _ (refs s.reply s.nextObj)
  rw [hz]
  exact ⟨Nat.one_pos, Nat.zero_le _, fun hk => absurd hk (Nat.lt_irrefl 0)⟩

/-- A new object on the list. -/
theorem addCreated_spec (h : s.Ok) {obj : Option Robj}
    (hsds : ∀ r, obj = some r → r.sds?.isSome = true) :
    ListStep s (listAddNodeTail (createObject s obj).1 (createObject s obj).2)
      (chunks s ++ [(s.nextNode, obj.map Robj.bytes)]) := by
  have hz := h.fresh_refs
  refine ⟨?_, kept_update rfl (fun x hx => ?_) (fun old hold _ => ?_), rfl, rfl, rfl, rfl, ?_⟩
  · refine HeapOk.addNode h (Nat.le_succ _) (Nat.lt_succ_self _) ?_ (Nat.le_succ _)
      (Nat.lt_succ_self _) h.nextNode_new
    rw [hz]
    cases obj with
    | none => exact ⟨rfl, rfl⟩
    | some r => exact ⟨Nat.one_pos, Nat.le_refl _, fun _ => hsds r rfl⟩
  · show refs (s.reply ++ [⟨s.nextNode, s.nextObj⟩]) x = _
    simp [Ne.symm hx]
  · exact absurd (h.lt hold) (Nat.lt_irrefl _)
  · show view _ (s.reply ++ [⟨s.nextNode, s.nextObj⟩]) = _
    rw [view_append]
    show view (Function.update s.heap s.nextObj (some ⟨1, obj⟩)) s.reply ++ _ = _
    rw [view_update hz]
    cases obj with
    | none => simp [chunks, view, content, createObject, listAddNodeTail, Out.setCell]
    | some r => simp [chunks, view, content, createObject, listAddNodeTail, Out.setCell]

theorem addNewObject_spec (h : s.Ok) {r : Robj} (hr : r.sds? = some b) :
    ∃ s', addNewObject r s = some s' ∧ ListStep s s' (chunks s ++ [(s.nextNode, some b)]) := by
  have hstep := @addCreated_spec s h (some r) (fun r' hr' => by cases hr'; rw [hr]; rfl)
  rw [Option.map_some, Robj.bytes_of_sds? hr] at hstep
  exact ⟨_, rfl, hstep⟩

/-- An object of someone else on the list. -/
theorem addShared_spec (h : s.Ok) {n : Nat} {r : Robj} (ho : s.heap o = some ⟨n, some r⟩)
    (hr : r.sds? = some b) :
    ∃ s', (incrRefCount s o).map (fun s => listAddNodeTail s o) = some s' ∧
      ListStep s s' (chunks s ++ [(s.nextNode, some b)]) := by
  have hc := h.cells o
  rw [ho] at hc
  have hsame : content (Function.update s.heap o (some ⟨n + 1, some r⟩)) o = content s.heap o := by
    rw [content_self, content_of_heap ho]
  refine ⟨listAddNodeTail (s.setCell o (some ⟨n + 1, some r⟩)) o,
    by simp only [incrRefCount, ho, Option.map_some],
    ⟨?_, kept_update rfl (fun x hx => ?_) (fun old hold _ => ?_), rfl, rfl, rfl, rfl, ?_⟩⟩
  · refine HeapOk.addNode h (Nat.le_refl _) (h.lt ho) ?_ (Nat.le_succ _) (Nat.lt_succ_self _)
      h.nextNode_new
    exact ⟨Nat.succ_pos _, Nat.succ_le_succ hc.2.1, fun _ => by rw [hr]; rfl⟩
  · show refs (s.reply ++ [⟨s.nextNode, o⟩]) x = _
    simp [Ne.symm hx]
  · rw [ho] at hold
    cases hold
    refine ⟨_, rfl, rfl, ?_⟩
    show n + 1 + refs s.reply o = n + refs (s.reply ++ [⟨s.nextNode, o⟩]) o
    simp only [refs_append, refs_cons, refs_nil, if_true]
    omega
  · show view (Function.update s.heap o (some ⟨n + 1, some r⟩)) (s.reply ++ [⟨s.nextNode, o⟩]) = _
    rw [view_append, view_update_same _ hsame, view_cons, content_self, Robj.bytes_of_sds? hr]
    rfl

/-- `dupLastObjectIfNeeded` of an object that is also elsewhere: a copy takes its place. -/
theorem dupLast_shared (h : s.Ok) {init : List Node} {ln : Node} {n : Nat} {r : Robj}
    (hl : s.reply = init ++ [ln]) (ho : s.heap ln.value = some ⟨n, some r⟩) (hn : n > 1) :
    dupLastObjectIfNeeded s = some ({ s with
      heap := Function.update (Function.update s.heap s.nextObj (some ⟨1, some r⟩))
        ln.value (Cell.decr ⟨n, some r⟩)
      nextObj := s.nextObj + 1
      reply := init ++ [⟨ln.id, s.nextObj⟩] }, s.nextObj) := by
  have hlast : s.reply.getLast? = some ln := by rw [hl, List.getLast?_concat]
  have hheap : (createObject s (some r)).1.heap ln.value = some ⟨n, some r⟩ := by
    rw [← ho]
    exact Function.update_of_ne (Nat.ne_of_lt (h.lt ho)) _ _
  have hinit : s.reply.dropLast = init := by rw [hl, List.dropLast_concat]
  simp only [dupLastObjectIfNeeded, hlast, ho, hn, if_true,
    decrRefCount_eq hheap (show 0 < n by omega), Option.map_some]
  simp only [Out.setCell, createObject, hinit]

/-- `dupLastObjectIfNeeded` of an object that is only on the list. -/
theorem dupLast_own {init : List Node} {ln : Node} {n : Nat} {r : Robj}
    (hl : s.reply = init ++ [ln]) (ho : s.heap ln.value = some ⟨n, some r⟩) (hn : ¬ n > 1) :
    dupLastObjectIfNeeded s = some (s, ln.value) := by
  have hlast : s.reply.getLast? = some ln := by rw [hl, List.getLast?_concat]
  simp only [dupLastObjectIfNeeded, hlast, ho, hn, if_false]

/-- Appending to the last object, in place if no one else has it, else to a copy. -/
theorem appendToLast_spec (h : s.Ok) {init : List Node} {ln : Node} {n : Nat} {t : Bytes}
    (hl : s.reply = init ++ [ln]) (ho : s.heap ln.value = some ⟨n, some (.raw t)⟩) (b : Bytes) :
    ∃ s', (dupLastObjectIfNeeded s).bind (fun p => catObject p.1 p.2 b) = some s' ∧
      ListStep s s' (view s.heap init ++ [(ln.id, some (t ++ b))]) := by
  have hc := h.cells ln.value
  rw [ho, hl] at hc
  simp only [refs_append, refs_cons, refs_nil, if_true, Nat.zero_add] at hc
  by_cases hn : n > 1
  · -- the copy takes the place of the object on the list
    have hrem := (show HeapOk s.heap (init ++ ln :: []) s.nextObj s.nextNode from hl ▸ h).removeNode ho
    rw [List.append_nil] at hrem
    obtain ⟨hok, hview⟩ := hrem
    have hne : ln.value ≠ s.nextObj := Nat.ne_of_lt (h.lt ho)
    have hids := h.ids
    rw [hl, List.map_append] at hids
    have hz := hok.fresh_refs
    obtain ⟨s', hs'⟩ : ∃ s' : Out, s' = { s with
        heap := Function.update (Function.update s.heap ln.value (Cell.decr ⟨n, some (.raw t)⟩))
          s.nextObj (some ⟨1, some (.raw (t ++ b))⟩)
        nextObj := s.nextObj + 1
        reply := init ++ [⟨ln.id, s.nextObj⟩] } := ⟨_, rfl⟩
    refine ⟨s', ?_, ⟨?_, fun x old hold hlt => ?_, by rw [hs'], by rw [hs'], by rw [hs'],
      by rw [hs'], ?_⟩⟩
    · rw [dupLast_shared h hl ho hn, Option.bind_some, hs']
      simp only [catObject, Function.update_of_ne (Ne.symm hne), Function.update_self, Out.setCell]
      rw [Function.update_comm hne, Function.update_idem, Function.update_comm (Ne.symm hne)]
    · rw [hs']
      refine hok.addNode (Nat.le_succ _) (Nat.lt_succ_self _) ?_ (Nat.le_refl _)
        (h.idLt ln (by rw [hl]; simp)) (fun hin => ?_)
      · rw [hz]
        exact ⟨Nat.one_pos, Nat.le_refl _, fun _ => rfl⟩
      · exact (List.nodup_append.mp hids).2.2 _ hin _ (by simp) rfl
    · have hxn : x ≠ s.nextObj := Nat.ne_of_lt (h.lt hold)
      have hrefs : refs s'.reply x = refs init x := by rw [hs']; simp [Ne.symm hxn]
      have hheap : s'.heap x
          = Function.update s.heap ln.value (Cell.decr ⟨n, some (.raw t)⟩) x := by
        rw [hs']
        exact Function.update_of_ne hxn _ _
      rw [hrefs, hheap]
      by_cases hx : x = ln.value
      · rw [hx] at hold ⊢
        rw [ho] at hold
        cases hold
        refine ⟨⟨n - 1, some (.raw t)⟩, ?_, rfl, ?_⟩
        · rw [Function.update_self, Cell.decr, if_neg (by simp only; omega)]
        · rw [hl]
          simp only [refs_append, refs_cons, refs_nil, if_true]
          omega
      · refine ⟨old, by rw [Function.update_of_ne hx, hold], rfl, ?_⟩
        rw [hl]
        simp [Ne.symm hx]
    · rw [hs']
      show view _ (init ++ [⟨ln.id, s.nextObj⟩]) = _
      rw [view_append, view_update hz, hview, view_cons, content_self]
      rfl
  · -- the list has the one reference there is
    have hz : refs init ln.value = 0 := by have := hc.2.1; omega
    refine ⟨s.setCell ln.value (some ⟨n, some (.raw (t ++ b))⟩), ?_,
      ⟨?_, kept_update rfl (fun _ _ => rfl) (fun old hold hlt => ?_), rfl, rfl, rfl, rfl, ?_⟩⟩
    · simp only [dupLast_own hl ho hn, Option.bind_some, catObject, ho]
    · refine HeapOk.setCell h (h.lt ho) ?_
      show CellOk _ (refs s.reply ln.value)
      rw [hl]
      simp only [refs_append, refs_cons, refs_nil, if_true, Nat.zero_add]
      exact ⟨hc.1, hc.2.1, fun _ => rfl⟩
    · rw [ho] at hold
      cases hold
      rw [hl] at hlt
      simp only [refs_append, refs_cons, refs_nil, if_true] at hlt
      omega
    · show view (Function.update s.heap ln.value _) s.reply = _
      rw [hl, view_append, view_update hz, view_cons, content_self]
      rfl

/-- Chunks with bytes added at the end: a chunk of their own, or more of the last one. -/
def Extended (cs cs' : List (Nat × Option Bytes)) (b : Bytes) : Prop :=
  (∃ id, cs' = cs ++ [(id, some b)]) ∨
    ∃ init id t, cs = init ++ [(id, some t)] ∧ cs' = init ++ [(id, some (t ++ b))]

/-- A step on the reply list that adds bytes at the end. -/
def ListAdds (s s' : Out) (b : Bytes) : Prop := ∃ cs, ListStep s s' cs ∧ Extended (chunks s) cs b

theorem listAdds_new {id : Nat} (h : ListStep s s' (chunks s ++ [(id, some b)])) :
    ListAdds s s' b := ⟨_, h, Or.inl ⟨id, rfl⟩⟩

theorem addToList_spec (h : s.Ok) (hopen : s.conn.flags.closeAfterReply = false)
    {newNode : Out → Option Out} (hnew : ∃ s', newNode s = some s' ∧ ListAdds s s' b) :
    ∃ s', addToList s b newNode = some s' ∧ ListAdds s s' b := by
  unfold addToList
  simp only [hopen, Bool.false_eq_true, if_false]
  cases hlast : s.reply.getLast? with
  | none => exact hnew
  | some ln =>
      have hl : s.reply = s.reply.dropLast ++ [ln] := (List.dropLast_append_getLast? ln hlast).symm
      have hc := h.cells ln.value
      have hpos : 0 < refs s.reply ln.value := refs_pos (by rw [hl]; simp)
      cases ho : s.heap ln.value with
      | none =>
          rw [ho] at hc
          exact absurd (show refs s.reply ln.value = 0 from hc) (by omega)
      | some cell =>
          obtain ⟨n, obj⟩ := cell
          cases obj with
          | none => simpa only [ho] using hnew
          | some r =>
              cases r with
              | raw t =>
                  simp only [ho]
                  split
                  · obtain ⟨s', heq, hstep⟩ := appendToLast_spec h hl ho b
                    refine ⟨s', heq, _, hstep, Or.inr ⟨_, _, t, ?_, rfl⟩⟩
                    rw [chunks, hl, view_append, view_cons, content_of_heap ho]
                    simp [view, Robj.bytes]
                  · exact hnew
              | embstr t => simpa only [ho] using hnew
              | int value => simpa only [ho] using hnew
              | other type => simpa only [ho] using hnew

/-- Taking the head off the list. -/
theorem deleteHead_spec (h : s.Ok) {ln : Node} {rest : List Node} (hl : s.reply = ln :: rest) :
    ∃ s', deleteHead s = some s' ∧ ListStep s s' (view s.heap rest) ∧ s'.reply = rest := by
  have hc := h.cells ln.value
  have hpos : 0 < refs s.reply ln.value := refs_pos (by rw [hl]; simp)
  cases ho : s.heap ln.value with
  | none =>
      rw [ho] at hc
      exact absurd (show refs s.reply ln.value = 0 from hc) (by omega)
  | some cell =>
      rw [ho] at hc
      obtain ⟨hok, hview⟩ :=
        (show HeapOk s.heap ([] ++ ln :: rest) s.nextObj s.nextNode from hl ▸ h).removeNode ho
      obtain ⟨s₁, hs₁⟩ : ∃ s₁ : Out, s₁ = { s with reply := rest } := ⟨_, rfl⟩
      have ho₁ : s₁.heap ln.value = some cell := by rw [hs₁, ← ho]
      refine ⟨s₁.setCell ln.value cell.decr, ?_, ⟨?_, kept_update (by rw [hs₁]; rfl) (fun x hx => ?_)
        (fun old hold hlt => ?_), ?_, ?_, ?_, ?_, ?_⟩, ?_⟩
      · simp only [deleteHead, hl, ← hs₁]
        exact decrRefCount_eq ho₁ hc.pos
      · rw [hs₁]
        exact hok
      · rw [hs₁, hl]
        simp [Out.setCell, Ne.symm hx]
      · rw [ho] at hold
        cases hold
        refine ⟨{ cell with refcount := cell.refcount - 1 },
          by rw [Cell.decr, if_neg (by omega)], rfl, ?_⟩
        rw [hs₁, hl]
        simp only [Out.setCell, refs_cons, if_true]
        omega
      · rw [hs₁]; rfl
      · rw [hs₁]; rfl
      · rw [hs₁]; rfl
      · rw [hs₁]; rfl
      · rw [hs₁]
        exact hview
      · rw [hs₁]
        rfl

/-- The node of a deferred length is found by its address. -/
theorem span_node (h : s.Ok) {before after : List Node} {ln : Node}
    (hl : s.reply = before ++ ln :: after) :
    s.reply.span (fun x => x.id ≠ ln.id) = (before, ln :: after) := by
  have hids := h.ids
  rw [hl, List.map_append] at hids
  have hbefore : ∀ x ∈ before, decide (x.id ≠ ln.id) = true := fun x hx => by
    have := (List.nodup_append.mp hids).2.2 _ (List.mem_map_of_mem hx) ln.id (by simp)
    simpa using this
  rw [List.span_eq_takeWhile_dropWhile, hl, List.takeWhile_append_of_pos hbefore,
    List.dropWhile_append_of_pos hbefore]
  simp

/-- Setting a multibulk length: the placeholder becomes the text, with what the node
behind it spells if that is set. -/
theorem setDeferred_spec (h : s.Ok) {before after : List Node} {ln : Node} {n : Nat}
    (hl : s.reply = before ++ ln :: after) (ho : s.heap ln.value = some ⟨n, none⟩) (length : Int) :
    ∃ s' cs, setDeferredMultiBulkLength s (some ln.id) length = some s' ∧
      ListStep s s' (view s.heap before ++ cs) ∧
      (cs = (ln.id, some (mbulkLen length)) :: view s.heap after ∨
        ∃ id b rest, view s.heap after = (id, some b) :: rest ∧
          cs = (ln.id, some (mbulkLen length ++ b)) :: rest) := by
  obtain ⟨text, htext⟩ : ∃ text, text = mbulkLen length := ⟨_, rfl⟩
  rw [← htext]
  have hc := h.cells ln.value
  rw [ho, hl] at hc
  simp only [refs_append, refs_cons, if_true] at hc
  have hzb : refs before ln.value = 0 := by have := hc.2; omega
  have hza : refs after ln.value = 0 := by have := hc.2; omega
  have hspan := span_node h hl
  -- the placeholder with any text in it
  have hset : ∀ t : Bytes, HeapOk (Function.update s.heap ln.value (some ⟨n, some (.raw t)⟩))
      s.reply s.nextObj s.nextNode ∧
      view (Function.update s.heap ln.value (some ⟨n, some (.raw t)⟩)) s.reply
        = view s.heap before ++ (ln.id, some t) :: view s.heap after := by
    intro t
    refine ⟨HeapOk.setCell h (h.lt ho) ?_, ?_⟩
    · rw [hl]
      simp only [refs_append, refs_cons, if_true]
      exact ⟨hc.1 ▸ Nat.one_pos, by have := hc.1; omega, fun _ => rfl⟩
    · rw [hl, view_append, view_update hzb, view_cons, content_self, view_update hza]
      rfl
  have hstart : setDeferredMultiBulkLength s (some ln.id) length
      = glueNext (s.setCell ln.value (some ⟨n, some (.raw text)⟩)) before ln ⟨n, none⟩ text after := by
    simp only [setDeferredMultiBulkLength, hspan, ho, htext]
  -- no one else refers to a placeholder
  have hkept : ∀ c, Kept s (s.setCell ln.value c) := fun c =>
    kept_update rfl (fun _ _ => rfl) (fun old hold hlt => by
      rw [ho] at hold
      cases hold
      rw [hl] at hlt
      simp only [refs_append, refs_cons, if_true] at hlt
      have := hc.1
      omega)
  have hkeep : ListStep s (s.setCell ln.value (some ⟨n, some (.raw text)⟩))
      (view s.heap before ++ (ln.id, some text) :: view s.heap after) :=
    ⟨(hset text).1, hkept _, rfl, rfl, rfl, rfl, (hset text).2⟩
  cases after with
  | nil => exact ⟨_, _, by rw [hstart]; rfl, hkeep, Or.inl rfl⟩
  | cons next after =>
      have hne : next.value ≠ ln.value := value_ne List.mem_cons_self hza
      have hheap : ∀ c, (s.setCell ln.value c).heap next.value = s.heap next.value := fun c =>
        Function.update_of_ne hne _ _
      have hcn := h.cells next.value
      have hpos : 0 < refs s.reply next.value := refs_pos (by rw [hl]; simp)
      cases hon : s.heap next.value with
      | none =>
          rw [hon] at hcn
          exact absurd (show refs s.reply next.value = 0 from hcn) (by omega)
      | some cell =>
          obtain ⟨m, obj⟩ := cell
          cases obj with
          | none =>
              refine ⟨_, _, ?_, hkeep, Or.inl rfl⟩
              rw [hstart]
              simp only [glueNext, hheap, hon]
          | some r =>
              rw [hon] at hcn
              obtain ⟨b, hb⟩ := Option.isSome_iff_exists.mp (hcn.2.2 hpos)
              obtain ⟨hok, hview⟩ := hset (text ++ b)
              rw [hl] at hok
              have hsplit : before ++ ln :: next :: after = (before ++ [ln]) ++ next :: after := by simp
              rw [hsplit] at hok
              have hon' : Function.update s.heap ln.value (some ⟨n, some (.raw (text ++ b))⟩)
                  next.value = some ⟨m, some r⟩ := by rw [Function.update_of_ne hne, hon]
              obtain ⟨hok', hview'⟩ := hok.removeNode hon'
              have hglued : before ++ [ln] ++ after = before ++ ln :: after := by simp
              rw [hglued] at hok' hview'
              obtain ⟨s₁, hs₁⟩ : ∃ s₁ : Out, s₁ = { s with
                  heap := Function.update s.heap ln.value (some ⟨n, some (.raw (text ++ b))⟩)
                  reply := before ++ ln :: after } := ⟨_, rfl⟩
              refine ⟨s₁.setCell next.value (Cell.decr ⟨m, some r⟩), _, ?_,
                ⟨by rw [hs₁]; exact hok', kept_trans (hkept _) (kept_update (by rw [hs₁]; rfl)
                  (fun x hx => ?_) (fun old hold hlt => ?_)), by rw [hs₁]; rfl, by rw [hs₁]; rfl, by rw [hs₁]; rfl,
                  by rw [hs₁]; rfl, ?_⟩, Or.inr ⟨next.id, b, view s.heap after, ?_, rfl⟩⟩
              · rw [hstart, ← decrRefCount_eq (by rw [hs₁]; exact hon') hcn.1, hs₁]
                simp only [glueNext, hheap, hon, hb]
                simp only [Out.setCell, Function.update_idem]
              · rw [hs₁]
                simp [Out.setCell, hl, Ne.symm hx]
              · rw [hheap, hon] at hold
                cases hold
                have hlt' : refs s.reply next.value < m := hlt
                refine ⟨⟨m - 1, some r⟩, by rw [Cell.decr, if_neg (by simp only; omega)], rfl, ?_⟩
                rw [hs₁]
                simp only [Out.setCell, hl, refs_append, refs_cons, if_true]
                omega
              · rw [hs₁]
                refine hview'.trans ?_
                have hzt : refs after ln.value = 0 := by
                  rw [refs_cons] at hza
                  omega
                rw [view_append, view_update hzb, view_cons, content_self, view_update hzt]
                rfl
              · rw [view_cons, content_of_heap hon, Robj.bytes_of_sds? hb]

/-! ## The stream -/

/-- A chunk as part of a stream: a placeholder is a hole with the address of its node. -/
def chunkAtoms (chunk : Nat × Option Bytes) : List (Atom UInt8 Nat) :=
  match chunk.2 with
  | some b => syms b
  | none => [.hole chunk.1]

/-- What is pending: the static buffer from `sentlen` and then the list, or the list from
`sentlen`. -/
def pendingAtoms (buf : Bytes) (sentlen : Nat) (cs : List (Nat × Option Bytes)) :
    List (Atom UInt8 Nat) :=
  if buf = [] then (cs.flatMap chunkAtoms).drop sentlen
  else syms (buf.drop sentlen) ++ cs.flatMap chunkAtoms

/-- `sentlen` is 0, or smaller than the length of the chunk it points into. -/
def SentOk (buf : Bytes) (sentlen : Nat) (cs : List (Nat × Option Bytes)) : Prop :=
  sentlen = 0 ∨ (buf ≠ [] ∧ sentlen < buf.length) ∨
    (buf = [] ∧ ∃ id b rest, cs = (id, some b) :: rest ∧ sentlen < b.length)

/-- What the socket has taken, and what is pending. -/
def stream (s : Out) : List (Atom UInt8 Nat) :=
  syms s.socket ++ pendingAtoms s.buf s.sentlen (chunks s)

/-- A client between two calls. -/
structure Good (s : Out) : Prop where
  ok : s.Ok
  notClosing : s.conn.flags.closeAfterReply = false
  sent : SentOk s.buf s.sentlen (chunks s)

variable {n : Nat} {cs cs' : List (Nat × Option Bytes)} {buf : Bytes}

theorem SentOk.le_length (h : SentOk [] n cs) : n ≤ (cs.flatMap chunkAtoms).length := by
  rcases h with rfl | ⟨hb, _⟩ | ⟨_, id, b, rest, rfl, hlt⟩
  · exact Nat.zero_le _
  · exact absurd rfl hb
  · simp only [List.flatMap_cons, List.length_append, chunkAtoms, length_syms]
    omega

theorem SentOk.zero_of_nil (h : SentOk [] n []) : n = 0 := by
  rcases h with h | ⟨hb, _⟩ | ⟨_, _, _, _, hcs, _⟩
  · exact h
  · exact absurd rfl hb
  · exact absurd hcs (by simp)

theorem flatMap_extended (h : Extended cs cs' b) :
    cs'.flatMap chunkAtoms = cs.flatMap chunkAtoms ++ syms b := by
  rcases h with ⟨id, rfl⟩ | ⟨init, id, t, rfl, rfl⟩
  · simp [chunkAtoms]
  · simp [chunkAtoms]

/-- Bytes at the end of the list are bytes at the end of what is pending. -/
theorem pendingAtoms_extended (hs : SentOk buf n cs) (h : Extended cs cs' b) :
    SentOk buf n cs' ∧ pendingAtoms buf n cs' = pendingAtoms buf n cs ++ syms b := by
  constructor
  · rcases hs with rfl | hs | ⟨hb, id, t, rest, rfl, hlt⟩
    · exact Or.inl rfl
    · exact Or.inr (Or.inl hs)
    · refine Or.inr (Or.inr ⟨hb, ?_⟩)
      rcases h with ⟨id', rfl⟩ | ⟨init, id', t', heq, rfl⟩
      · exact ⟨id, t, _, List.cons_append, hlt⟩
      · cases init with
        | nil =>
            cases heq
            exact ⟨id, t ++ b, [], rfl, by rw [List.length_append]; omega⟩
        | cons c init =>
            cases heq
            exact ⟨id, t, _, rfl, hlt⟩
  · unfold pendingAtoms
    rw [flatMap_extended h]
    split
    · next hb =>
        subst hb
        rw [List.drop_append_of_le_length hs.le_length]
    · rw [List.append_assoc]

/-- Bytes at the end of the static buffer, while the list is empty. -/
theorem pendingAtoms_buffer (hs : SentOk buf n []) (b : Bytes) :
    SentOk (buf ++ b) n [] ∧ pendingAtoms (buf ++ b) n [] = pendingAtoms buf n [] ++ syms b := by
  by_cases hb : buf = []
  · subst hb
    rw [hs.zero_of_nil]
    refine ⟨Or.inl rfl, ?_⟩
    cases b with
    | nil => rfl
    | cons x b => simp [pendingAtoms]
  · have hne : buf ++ b ≠ [] := by simp [hb]
    have hle : n ≤ buf.length := by
      rcases hs with h | ⟨_, h⟩ | ⟨h, _⟩
      · omega
      · exact Nat.le_of_lt h
      · exact absurd h hb
    constructor
    · rcases hs with h | ⟨_, h⟩ | ⟨h, _⟩
      · exact Or.inl h
      · exact Or.inr (Or.inl ⟨hne, by rw [List.length_append]; omega⟩)
      · exact absurd h hb
    · simp [pendingAtoms, hb, List.drop_append_of_le_length hle]

/-! ## Adding a reply -/

/-- A call that adds bytes at the end of the stream. -/
structure Adds (s s' : Out) (b : Bytes) : Prop where
  good : Good s'
  conn : s'.conn = s.conn
  stream : stream s' = stream s ++ syms b

theorem adds_nil (h : Good s) : Adds s s [] := ⟨h, rfl, by simp⟩

theorem Adds.trans {s₁ s₂ s₃ : Out} {b₁ b₂ : Bytes} (h₁ : Adds s₁ s₂ b₁) (h₂ : Adds s₂ s₃ b₂) :
    Adds s₁ s₃ (b₁ ++ b₂) :=
  ⟨h₂.good, h₂.conn.trans h₁.conn, by rw [h₂.stream, h₁.stream, syms_append, List.append_assoc]⟩

/-- A step on the list that leaves the chunks as they are, or adds bytes to them. -/
theorem Good.listStep (h : Good s) (hstep : ListStep s s' cs)
    (hs : SentOk s.buf s.sentlen cs)
    (hp : pendingAtoms s.buf s.sentlen cs = pendingAtoms s.buf s.sentlen (chunks s) ++ syms b) :
    Adds s s' b := by
  refine ⟨⟨hstep.ok, by rw [hstep.conn]; exact h.notClosing, ?_⟩, hstep.conn, ?_⟩
  · rw [hstep.buf, hstep.sentlen, hstep.chunks]
    exact hs
  · rw [stream, hstep.socket, hstep.buf, hstep.sentlen, hstep.chunks, hp, stream, List.append_assoc]

theorem Good.listAdds (h : Good s) (ha : ListAdds s s' b) : Adds s s' b ∧ Kept s s' := by
  obtain ⟨cs, hstep, hext⟩ := ha
  obtain ⟨hs, hp⟩ := pendingAtoms_extended h.sent hext
  exact ⟨h.listStep hstep hs hp, hstep.kept⟩

/-- Room in the static buffer, or a refusal that changes nothing. -/
theorem addReplyToBuffer_spec (h : Good s) (b : Bytes) :
    (∃ s', addReplyToBuffer s b = (s', true) ∧ Adds s s' b ∧ Kept s s') ∨
      addReplyToBuffer s b = (s, false) := by
  unfold addReplyToBuffer
  simp only [h.notClosing, Bool.false_eq_true, if_false]
  split
  · exact Or.inr rfl
  · next hempty =>
      split
      · exact Or.inr rfl
      · have hcs : chunks s = [] := by simp [chunks, view, not_not.mp hempty]
        have hsent := h.sent
        rw [hcs] at hsent
        obtain ⟨hs, hp⟩ := pendingAtoms_buffer hsent b
        refine Or.inl ⟨_, rfl, ⟨⟨h.ok, h.notClosing, ?_⟩, rfl, ?_⟩, kept_refl s⟩
        · show SentOk (s.buf ++ b) s.sentlen (chunks s)
          rw [hcs]
          exact hs
        · show syms s.socket ++ pendingAtoms (s.buf ++ b) s.sentlen (chunks s) = _
          rw [stream, hcs, hp, List.append_assoc]

/-- What the entry points share: the static buffer, else the list. -/
theorem bufferOrList_spec (h : Good s) {toList : Out → Option Out}
    (hlist : ∃ s', toList s = some s' ∧ ListAdds s s' b) :
    ∃ s', (if (addReplyToBuffer s b).2 then some (addReplyToBuffer s b).1
      else toList (addReplyToBuffer s b).1) = some s' ∧ Adds s s' b ∧ Kept s s' := by
  rcases addReplyToBuffer_spec h b with ⟨s', heq, hadds, hkept⟩ | heq
  · exact ⟨s', by rw [heq]; rfl, hadds, hkept⟩
  · obtain ⟨s', hs', hadds⟩ := hlist
    obtain ⟨hadds, hkept⟩ := h.listAdds hadds
    exact ⟨s', by rw [heq]; exact hs', hadds, hkept⟩

theorem addReplyEncoded_spec (h : Good s) {r : Robj} (ho : s.heap o = some ⟨n, some r⟩)
    (hr : r.sds? = some b) :
    ∃ s', addReplyEncoded s o b = some s' ∧ Adds s s' b ∧ Kept s s' := by
  have hlist : ∃ s', addReplyObjectToList s o b = some s' ∧ ListAdds s s' b :=
    addToList_spec h.ok h.notClosing (by
      obtain ⟨s', heq, hstep⟩ := addShared_spec h.ok ho hr
      exact ⟨s', heq, listAdds_new hstep⟩)
  exact @bufferOrList_spec s b h (fun s => addReplyObjectToList s o b) hlist

/-- The heap after someone else's reference is given up. -/
theorem release_ok (h : s.Ok) {cell : Cell} (ho : s.heap o = some cell)
    (hlt : refs s.reply o < cell.refcount) : Out.Ok (s.setCell o cell.decr) := by
  have hc := h.cells o
  rw [ho] at hc
  refine HeapOk.setCell h (h.lt ho) ?_
  obtain ⟨m, obj⟩ := cell
  cases obj with
  | none =>
      obtain ⟨hm, hk⟩ := hc
      simp only at hlt
      omega
  | some r =>
      obtain ⟨_, hle, hs⟩ := hc
      simp only [Cell.decr] at hlt ⊢
      split
      · show refs s.reply o = 0
        omega
      · have hle' : refs s.reply o ≤ m - 1 := by omega
        exact ⟨by omega, hle', hs⟩

/-- Someone else's reference is given up. -/
theorem release_spec (h : Good s) {cell : Cell} (ho : s.heap o = some cell)
    (hlt : refs s.reply o < cell.refcount) :
    ∃ s', decrRefCount s o = some s' ∧ Adds s s' [] := by
  have hview : view (Function.update s.heap o cell.decr) s.reply = view s.heap s.reply := by
    by_cases hone : cell.refcount = 1
    · exact view_update (by omega) _ _
    · exact view_update_same _ (content_decr ho hone)
  refine ⟨_, decrRefCount_eq ho (by omega), ⟨⟨release_ok h.ok ho hlt, h.notClosing, ?_⟩, rfl, ?_⟩⟩
  · show SentOk s.buf s.sentlen (view _ _)
    rw [show (s.setCell o cell.decr).reply = s.reply from rfl]
    exact hview ▸ h.sent
  · show syms s.socket ++ pendingAtoms s.buf s.sentlen (view (Function.update s.heap o cell.decr)
      s.reply) = _
    rw [hview, syms_nil, List.append_nil]
    rfl

theorem createObject_good (h : Good s) (r : Robj) :
    Adds s (createObject s (some r)).1 [] ∧ Kept s (createObject s (some r)).1 := by
  have hstep := createObject_spec h.ok r
  exact ⟨h.listStep hstep h.sent (by simp), hstep.kept⟩

theorem createStringObject_sds (b : Bytes) : (createStringObject b).sds? = some b := by
  unfold createStringObject
  split <;> rfl

/-- A reference that is given up matters to nobody else. -/
theorem kept_release {s₀ s s' : Out} (hkept : Kept s₀ s) (heq : decrRefCount s o = some s')
    (hnew : s₀.heap o = none) : Kept s₀ s' := by
  unfold decrRefCount at heq
  have hcell : ∃ cell, s' = s.setCell o cell := by
    split at heq
    · exact absurd heq (by simp)
    · split at heq
      · exact absurd heq (by simp)
      · split at heq
        · exact ⟨_, (Option.some.inj heq).symm⟩
        · exact ⟨_, (Option.some.inj heq).symm⟩
  obtain ⟨cell, rfl⟩ := hcell
  intro x old hold hlt
  obtain ⟨cell', ho, hobj, hcount⟩ := hkept x old hold hlt
  have hx : x ≠ o := by
    rintro rfl
    rw [hnew] at hold
    exact absurd hold (by simp)
  exact ⟨cell', by rw [← ho]; exact Function.update_of_ne hx _ _, hobj, hcount⟩

/-- A decoded INT object: it is created, added and given up again. -/
theorem addReplyDecoded_spec (h : Good s) (value : Int) :
    ∃ s', addReplyDecoded s value = some s' ∧ Adds s s' (ll2str value) ∧ Kept s s' := by
  obtain ⟨hnew, hkept₁⟩ := createObject_good h (createStringObject (ll2str value))
  have hz := h.ok.fresh_refs
  obtain ⟨s₁, hs₁⟩ : ∃ s₁, s₁ = (createObject s (some (createStringObject (ll2str value)))).1 :=
    ⟨_, rfl⟩
  have ho : s₁.heap s.nextObj = some ⟨1, some (createStringObject (ll2str value))⟩ := by
    rw [hs₁]
    exact Function.update_self _ _ _
  have hrefs : refs s₁.reply s.nextObj = 0 := by rw [hs₁]; exact hz
  rw [← hs₁] at hnew hkept₁
  obtain ⟨s₂, heq, hadds, hkept⟩ := addReplyEncoded_spec hnew.good ho (createStringObject_sds _)
  obtain ⟨cell, ho₂, _, hcount⟩ := hkept _ _ ho (by rw [hrefs]; exact Nat.one_pos)
  obtain ⟨s₃, heq₃, hrel⟩ := release_spec hadds.good ho₂ (by simp only at hcount; omega)
  refine ⟨s₃, ?_, ?_, kept_release (kept_trans hkept₁ hkept) heq₃ (h.ok.fresh _ (Nat.le_refl _))⟩
  · simp only [addReplyDecoded, ← hs₁]
    rw [show (createObject s (some (createStringObject (ll2str value)))).2 = s.nextObj from rfl,
      heq, Option.bind_some, heq₃]
  · have := (hnew.trans hadds).trans hrel
    simpa using this

/-- **`addReply`** of any string object. -/
theorem addReply_spec (h : Good s) {r : Robj} (ho : s.heap o = some ⟨n, some r⟩)
    (hr : r.isString = true) :
    ∃ s', addReply s o = some s' ∧ Adds s s' (if s.conn.accepts then r.bytes else []) ∧
      Kept s s' := by
  unfold addReply
  cases hacc : s.conn.accepts with
  | false => exact ⟨s, by simp, by simpa using adds_nil h, kept_refl s⟩
  | true =>
      simp only [Bool.not_true, Bool.false_eq_true, if_false, if_true, ho]
      cases r with
      | raw b =>
          obtain ⟨s', heq, hadds, hkept⟩ := addReplyEncoded_spec h ho rfl
          exact ⟨s', heq, hadds, hkept⟩
      | embstr b =>
          obtain ⟨s', heq, hadds, hkept⟩ := addReplyEncoded_spec h ho rfl
          exact ⟨s', heq, hadds, hkept⟩
      | other type => exact absurd hr (by simp [Robj.isString])
      | int value =>
          simp only
          split
          · rcases addReplyToBuffer_spec h (ll2str value) with ⟨s', heq, hadds, hkept⟩ | heq
            · exact ⟨s', by rw [heq]; rfl, hadds, hkept⟩
            · rw [heq]
              exact addReplyDecoded_spec h value
          · exact addReplyDecoded_spec h value

theorem addReplySds_spec (h : Good s) (b : Bytes) :
    ∃ s', addReplySds s b = some s' ∧ Adds s s' (if s.conn.accepts then b else []) ∧ Kept s s' := by
  unfold addReplySds
  cases hacc : s.conn.accepts with
  | false => exact ⟨s, by simp, by simpa using adds_nil h, kept_refl s⟩
  | true =>
      simp only [Bool.not_true, Bool.false_eq_true, if_false, if_true]
      have hlist : ∃ s', addReplySdsToList s b = some s' ∧ ListAdds s s' b :=
        addToList_spec h.ok h.notClosing (by
          obtain ⟨s', heq, hstep⟩ := @addNewObject_spec s b h.ok (.raw b) rfl
          exact ⟨s', heq, listAdds_new hstep⟩)
      obtain ⟨s', heq, hadds, hkept⟩ :=
        @bufferOrList_spec s b h (fun s => addReplySdsToList s b) hlist
      exact ⟨s', heq, hadds, hkept⟩

theorem addReplyString_spec (h : Good s) (b : Bytes) :
    ∃ s', addReplyString s b = some s' ∧ Adds s s' (if s.conn.accepts then b else []) ∧ Kept s s' := by
  unfold addReplyString
  cases hacc : s.conn.accepts with
  | false => exact ⟨s, by simp, by simpa using adds_nil h, kept_refl s⟩
  | true =>
      simp only [Bool.not_true, Bool.false_eq_true, if_false, if_true]
      have hlist : ∃ s', addReplyStringToList s b = some s' ∧ ListAdds s s' b :=
        addToList_spec h.ok h.notClosing (by
          obtain ⟨s', heq, hstep⟩ := addNewObject_spec h.ok (createStringObject_sds b)
          exact ⟨s', heq, listAdds_new hstep⟩)
      obtain ⟨s', heq, hadds, hkept⟩ :=
        @bufferOrList_spec s b h (fun s => addReplyStringToList s b) hlist
      exact ⟨s', heq, hadds, hkept⟩

/-! ## Deferred lengths -/

theorem SentOk.append (hs : SentOk buf n cs) (c : Nat × Option Bytes) : SentOk buf n (cs ++ [c]) := by
  rcases hs with h | h | ⟨hb, id, t, rest, rfl, hlt⟩
  · exact Or.inl h
  · exact Or.inr (Or.inl h)
  · exact Or.inr (Or.inr ⟨hb, id, t, _, List.cons_append, hlt⟩)

/-- **`addDeferredMultiBulkLength`** leaves a hole at the end of the stream. -/
theorem addDeferred_spec (h : Good s) (hacc : s.conn.accepts = true) :
    Good (addDeferredMultiBulkLength s).1 ∧ (addDeferredMultiBulkLength s).2 = some s.nextNode ∧
      (addDeferredMultiBulkLength s).1.conn = s.conn ∧
      stream (addDeferredMultiBulkLength s).1 = stream s ++ [.hole s.nextNode] := by
  have hstep := @addCreated_spec s h.ok none (fun r hr => absurd hr (by simp))
  have heq : addDeferredMultiBulkLength s
      = (listAddNodeTail (createObject s none).1 (createObject s none).2, some s.nextNode) := by
    simp [addDeferredMultiBulkLength, hacc]
  rw [heq]
  refine ⟨⟨hstep.ok, h.notClosing, ?_⟩, rfl, hstep.conn, ?_⟩
  · rw [hstep.buf, hstep.sentlen, hstep.chunks]
    exact h.sent.append _
  · rw [stream, hstep.socket, hstep.buf, hstep.sentlen, hstep.chunks, stream, List.append_assoc]
    congr 1
    unfold pendingAtoms
    rw [List.flatMap_append]
    split
    · next hb =>
        have hs := h.sent
        rw [hb] at hs
        rw [List.drop_append_of_le_length hs.le_length]
        rfl
    · rw [List.append_assoc]
      rfl

theorem fill_chunks {id : Nat} (text : Bytes) : ∀ {cs : List (Nat × Option Bytes)},
    (∀ c ∈ cs, c.1 ≠ id) → fill id text (cs.flatMap chunkAtoms) = cs.flatMap chunkAtoms := by
  intro cs
  induction cs with
  | nil => intro _; rfl
  | cons c cs ih =>
      intro hne
      rw [List.flatMap_cons, fill_append, ih (fun x hx => hne x (List.mem_cons_of_mem _ hx))]
      congr 1
      obtain ⟨i, ob⟩ := c
      cases ob with
      | none => exact fill_other (hne _ List.mem_cons_self) text
      | some b => exact fill_syms _ _ _

/-- A placeholder that is set, alone or glued to the chunk behind it. -/
theorem pendingAtoms_fill {id : Nat} {text : Bytes} {before after new : List (Nat × Option Bytes)}
    (hs : SentOk buf n (before ++ (id, none) :: after)) (hb : ∀ c ∈ before, c.1 ≠ id)
    (ha : ∀ c ∈ after, c.1 ≠ id)
    (hnew : new = (id, some text) :: after ∨
      ∃ i b rest, after = (i, some b) :: rest ∧ new = (id, some (text ++ b)) :: rest) :
    SentOk buf n (before ++ new) ∧ pendingAtoms buf n (before ++ new)
      = fill id text (pendingAtoms buf n (before ++ (id, none) :: after)) := by
  have hatoms : new.flatMap chunkAtoms = syms text ++ after.flatMap chunkAtoms := by
    rcases hnew with rfl | ⟨i, b, rest, rfl, rfl⟩
    · rfl
    · simp [chunkAtoms]
  have hflat : (before ++ new).flatMap chunkAtoms
      = fill id text ((before ++ (id, none) :: after).flatMap chunkAtoms) := by
    rw [List.flatMap_append, hatoms, List.flatMap_append, List.flatMap_cons, fill_append,
      fill_append, fill_chunks text hb, fill_chunks text ha]
    congr 2
    exact (fill_self id text).symm
  have hhead : buf = [] → n = 0 ∨ ∃ i b rest, before = (i, some b) :: rest ∧ n < b.length := by
    intro hbuf
    rcases hs with h | ⟨h, _⟩ | ⟨_, i, b, rest, heq, hlt⟩
    · exact Or.inl h
    · exact absurd hbuf h
    · cases before with
      | nil => cases heq
      | cons c before =>
          cases heq
          exact Or.inr ⟨i, b, before, rfl, hlt⟩
  constructor
  · rcases hs with h | h | ⟨hbuf, h⟩
    · exact Or.inl h
    · exact Or.inr (Or.inl h)
    · rcases hhead hbuf with h | ⟨i, b, rest, rfl, hlt⟩
      · exact Or.inl h
      · exact Or.inr (Or.inr ⟨hbuf, i, b, rest ++ new, rfl, hlt⟩)
  · unfold pendingAtoms
    split
    · next hbuf =>
        rcases hhead hbuf with rfl | ⟨i, b, rest, rfl, hlt⟩
        · exact hflat
        · -- the part that is sent lies in the first chunk, which has no hole
          have hle : n ≤ b.length := Nat.le_of_lt hlt
          have hrest : (rest ++ new).flatMap chunkAtoms
              = fill id text ((rest ++ (id, none) :: after).flatMap chunkAtoms) := by
            rw [List.cons_append, List.cons_append, List.flatMap_cons, List.flatMap_cons,
              fill_append] at hflat
            rw [show fill id text (chunkAtoms (i, some b)) = chunkAtoms (i, some b) from
              fill_syms _ _ _] at hflat
            exact List.append_cancel_left hflat
          rw [List.cons_append, List.cons_append, List.flatMap_cons, List.flatMap_cons,
            List.drop_append_of_le_length (by simpa [chunkAtoms] using hle),
            List.drop_append_of_le_length (by simpa [chunkAtoms] using hle), fill_append, hrest]
          congr 1
          show (syms b).drop n = fill id text ((syms b).drop n)
          rw [drop_syms, fill_syms]
    · rw [fill_append, fill_syms, hflat]

/-- A placeholder of the list that is not set yet. -/
def OpenNode (s : Out) (id : Nat) : Prop := (id, none) ∈ chunks s

/-- Where it is, and that its object has no string. -/
theorem OpenNode.split (h : s.Ok) {id : Nat} (hopen : OpenNode s id) :
    ∃ before ln after m, s.reply = before ++ ln :: after ∧ ln.id = id ∧
      s.heap ln.value = some ⟨m, none⟩ := by
  obtain ⟨ln, hln, heq⟩ := List.mem_map.mp hopen
  obtain ⟨hid, hcont⟩ := Prod.mk.inj heq
  obtain ⟨before, after, hl⟩ := List.append_of_mem hln
  have hc := h.cells ln.value
  have hpos := refs_pos hln
  cases hh : s.heap ln.value with
  | none =>
      rw [hh] at hc
      exact absurd (show refs s.reply ln.value = 0 from hc) (by omega)
  | some cell =>
      obtain ⟨m, obj⟩ := cell
      cases obj with
      | none => exact ⟨before, ln, after, m, hl, hid, hh⟩
      | some r =>
          rw [content_of_heap hh] at hcont
          exact absurd hcont (by simp)

/-- **`setDeferredMultiBulkLength`** fills the hole of its node. -/
theorem setDeferred_fills (h : Good s) {id : Nat} (hopen : OpenNode s id) (length : Int) :
    ∃ s', setDeferredMultiBulkLength s (some id) length = some s' ∧ Good s' ∧ s'.conn = s.conn ∧
      stream s' = fill id (mbulkLen length) (stream s) := by
  obtain ⟨before, ln, after, m, hl, hid, ho⟩ := OpenNode.split h.ok hopen
  have hcont : content s.heap ln.value = none := by simp only [content, ho]
  obtain ⟨s', new, hrun, hstep, hnew⟩ := setDeferred_spec h.ok hl ho length
  rw [hid] at hrun hnew
  have hids := h.ok.ids
  rw [hl, List.map_append, List.map_cons, hid] at hids
  obtain ⟨_, hnd, hdisj⟩ := List.nodup_append.mp hids
  have hchunks : chunks s = view s.heap before ++ (id, none) :: view s.heap after := by
    rw [chunks, hl, view_append, view_cons, hid, hcont]
  have hb : ∀ c ∈ view s.heap before, c.1 ≠ id := fun c hc' => by
    obtain ⟨x, hx, rfl⟩ := List.mem_map.mp hc'
    exact hdisj _ (List.mem_map_of_mem hx) id List.mem_cons_self
  have ha : ∀ c ∈ view s.heap after, c.1 ≠ id := fun c hc' => by
    obtain ⟨x, hx, rfl⟩ := List.mem_map.mp hc'
    rintro hxid
    exact (List.nodup_cons.mp hnd).1 (hxid ▸ List.mem_map_of_mem hx)
  have hsent := h.sent
  rw [hchunks] at hsent
  obtain ⟨hs, hp⟩ := pendingAtoms_fill hsent hb ha hnew
  refine ⟨s', hrun, ⟨hstep.ok, by rw [hstep.conn]; exact h.notClosing, ?_⟩, hstep.conn, ?_⟩
  · rw [hstep.buf, hstep.sentlen, hstep.chunks]
    exact hs
  · rw [stream, hstep.socket, hstep.buf, hstep.sentlen, hstep.chunks, hp, stream, fill_append,
      fill_syms, hchunks]

end Output

end RedisCore
