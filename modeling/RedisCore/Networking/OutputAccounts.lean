/-
# `RedisCore.Networking.OutputAccounts` — the counter is exact

`Exact c`: the counter is the sum over the reply list of what each object is charged, on
a heap as the functions of the list keep it.  A step on one object leaves what the others
are charged alone, for two reasons: its block is its own, and an object that the list
shares with someone else is never written to.

A step may also fail, when the output is too large for the counter; `UnlessTooLarge` is
how the functions are specified.  No other fault is possible, an underflow in particular.
-/
import RedisCore.Networking.OutputMemory

namespace RedisCore

namespace OutputMemory

open Output Clients

variable {heap heap' : ObjId → Option Cell} {block block' : ObjId → Nat} {o : ObjId} {b : Bytes}
  {mem : Allocator} {limits : ClientType → ClientBufferLimitsConfig} {c c' : Client}

/-! ## Outcomes -/

/-- It holds of the result, unless the output has become too large. -/
def UnlessTooLarge {α : Type} (P : α → Prop) : Except Fault α → Prop
  | .ok a => P a
  | .error e => e = .tooLarge

theorem UnlessTooLarge.bind {α β : Type} {P : α → Prop} {Q : β → Prop} {r : Except Fault α}
    {f : α → Except Fault β} (h : UnlessTooLarge P r) (hf : ∀ a, P a → UnlessTooLarge Q (f a)) :
    UnlessTooLarge Q (r.bind f) := by
  cases r with
  | ok a => exact hf a h
  | error e => exact h

theorem UnlessTooLarge.map {α β : Type} {P : α → Prop} {Q : β → Prop} {r : Except Fault α}
    {f : α → β} (h : UnlessTooLarge P r) (hf : ∀ a, P a → Q (f a)) :
    UnlessTooLarge Q (r.map f) := by
  cases r with
  | ok a => exact hf a h
  | error e => exact h

theorem UnlessTooLarge.mono {α : Type} {P Q : α → Prop} {r : Except Fault α}
    (h : UnlessTooLarge P r) (hf : ∀ a, P a → Q a) : UnlessTooLarge Q r := by
  cases r with
  | ok a => exact hf a h
  | error e => exact h

theorem charge_unless {n : Nat} {P : Client → Prop}
    (h : P { c with replyBytes := c.replyBytes + n }) : UnlessTooLarge P (c.charge n) := by
  unfold Client.charge
  split
  · exact h
  · rfl

theorem discharge_eq {n : Nat} (h : n ≤ c.replyBytes) :
    c.discharge n = .ok { c with replyBytes := c.replyBytes - n } := by
  rw [Client.discharge, if_pos h]

/-! ## What a list is charged -/

/-- What the object at an address is charged. -/
def used (heap : ObjId → Option Cell) (block : ObjId → Nat) (o : ObjId) : Nat :=
  match heap o with
  | some ⟨_, some (.raw _)⟩ => block o
  | some ⟨_, some (.embstr _)⟩ => block o - sizeofRobj
  | _ => 0

/-- What the nodes of a list are charged. -/
def charged (heap : ObjId → Option Cell) (block : ObjId → Nat) (l : List Node) : Nat :=
  (l.map (fun ln => used heap block ln.value)).sum

theorem getStringObjectSdsUsedMemory_eq (c : Client) (o : ObjId) :
    c.getStringObjectSdsUsedMemory o = used c.out.heap c.block o := rfl

@[simp] theorem charged_nil : charged heap block [] = 0 := rfl

@[simp] theorem charged_cons (ln : Node) (l : List Node) :
    charged heap block (ln :: l) = used heap block ln.value + charged heap block l := rfl

@[simp] theorem charged_append (l m : List Node) :
    charged heap block (l ++ m) = charged heap block l + charged heap block m := by
  simp only [charged, List.map_append, List.sum_append]

theorem used_congr (hheap : heap' o = heap o) (hblock : block' o = block o) :
    used heap' block' o = used heap block o := by
  simp only [used, hheap, hblock]

theorem used_raw {n : Nat} {t : Bytes} (h : heap o = some ⟨n, some (.raw t)⟩) :
    used heap block o = block o := by
  simp only [used, h]

/-- The references to an object are of no account. -/
theorem used_refcount {cell cell' : Cell} (h : heap o = some cell) (h' : heap' o = some cell')
    (hobj : cell'.obj = cell.obj) (hblock : block' o = block o) :
    used heap' block' o = used heap block o := by
  obtain ⟨n, r⟩ := cell
  obtain ⟨n', r'⟩ := cell'
  cases hobj
  simp only [used, h, h', hblock]
  cases r with
  | none => rfl
  | some r => cases r <;> rfl

theorem charged_congr {l : List Node}
    (h : ∀ ln ∈ l, used heap' block' ln.value = used heap block ln.value) :
    charged heap' block' l = charged heap block l := by
  rw [charged, List.map_congr_left h]
  rfl

/-- A step on an object the list does not refer to. -/
theorem charged_update {l : List Node} (hz : refs l o = 0)
    (hheap : ∀ x, x ≠ o → heap' x = heap x) (hblock : ∀ x, x ≠ o → block' x = block x) :
    charged heap' block' l = charged heap block l :=
  charged_congr (fun _ hln =>
    have hne := value_ne hln hz
    used_congr (hheap _ hne) (hblock _ hne))

/-- A step on the references of an object. -/
theorem charged_refcount {l : List Node} {cell cell' : Cell} (ho : heap o = some cell)
    (hobj : cell'.obj = cell.obj) :
    charged (Function.update heap o (some cell')) block l = charged heap block l := by
  refine charged_congr (fun ln _ => ?_)
  by_cases hx : ln.value = o
  · rw [hx]
    exact used_refcount ho (Function.update_self _ _ _) hobj rfl
  · exact used_congr (Function.update_of_ne hx _ _) rfl

/-- A reference is given up, the last one only if the list has none. -/
theorem charged_decr {l : List Node} {cell : Cell} (ho : heap o = some cell)
    (hz : cell.refcount = 1 → refs l o = 0) :
    charged (Function.update heap o cell.decr) block l = charged heap block l := by
  by_cases hone : cell.refcount = 1
  · exact charged_update (hz hone) (fun x hx => Function.update_of_ne hx _ _) (fun _ _ => rfl)
  · rw [Cell.decr, if_neg hone]
    exact charged_refcount ho rfl

/-! ## The invariant -/

/-- The counter is what the list is charged. -/
structure Exact (c : Client) : Prop where
  ok : c.out.Ok
  exact : c.replyBytes = charged c.out.heap c.block c.out.reply

/-- The limit check has no part in the accounts. -/
theorem asyncClose_exact (h : Exact c) :
    UnlessTooLarge Exact (asyncCloseClientOnOutputBufferLimitReached limits c) := by
  have hcheck : Exact (checkClientOutputBufferLimits limits c).1 := by
    unfold checkClientOutputBufferLimits
    dsimp only
    split
    · split
      · exact ⟨h.ok, h.exact⟩
      · exact h
    · exact ⟨h.ok, h.exact⟩
  unfold asyncCloseClientOnOutputBufferLimitReached
  split
  · split
    · exact h
    · obtain ⟨r, hr⟩ : ∃ r, r = checkClientOutputBufferLimits limits c := ⟨_, rfl⟩
      rw [← hr] at hcheck ⊢
      obtain ⟨c', soft, hard⟩ := r
      dsimp only at hcheck ⊢
      split
      · unfold freeClientAsync
        split
        · exact ⟨hcheck.ok, hcheck.exact⟩
        · exact ⟨hcheck.ok, hcheck.exact⟩
      · exact hcheck
  · rfl

/-! ## Adding to the list -/

/-- The last object, which is nowhere else on the list, is appended to and then charged. -/
theorem sdscatlen_exact {init : List Node} {ln : Node} {n : Nat} {t : Bytes}
    (hl : c.out.reply = init ++ [ln]) (ho : c.out.heap ln.value = some ⟨n, some (.raw t)⟩)
    (hz : refs init ln.value = 0) (hrest : c.replyBytes = charged c.out.heap c.block init)
    (hok : ∀ s, catObject c.out ln.value b = some s → s.Ok) :
    UnlessTooLarge Exact ((c.sdscatlen mem ln.value b).bind (fun c =>
      c.charge (c.sdsZmallocSize ln.value))) := by
  obtain ⟨size, hsize⟩ : ∃ size, size = mem.size c.blocks ((t ++ b).length + 1) := ⟨_, rfl⟩
  have hcat : catObject c.out ln.value b
      = some (c.out.setCell ln.value (some ⟨n, some (.raw (t ++ b))⟩)) := by
    simp only [catObject, ho]
  simp only [Client.sdscatlen, ho, Client.allocate, ← hsize, Except.bind]
  refine charge_unless ⟨hok _ hcat, ?_⟩
  show c.replyBytes + Function.update c.block ln.value size ln.value
    = charged (Function.update c.out.heap ln.value (some ⟨n, some (.raw (t ++ b))⟩))
        (Function.update c.block ln.value size) c.out.reply
  rw [hl, charged_append, charged_cons, charged_nil, used_raw (Function.update_self _ _ _), hrest,
    Nat.add_zero]
  congr 1
  exact (charged_update hz (fun x hx => Function.update_of_ne hx _ _)
    (fun x hx => Function.update_of_ne hx _ _)).symm

/-- The last object of the list, its own if need be, is charged anew for its new string. -/
theorem appendToLast_exact (h : Exact c) {init : List Node} {ln : Node} {n : Nat} {t : Bytes}
    (hl : c.out.reply = init ++ [ln]) (ho : c.out.heap ln.value = some ⟨n, some (.raw t)⟩)
    (b : Bytes) : UnlessTooLarge Exact (appendToLast mem c ln b) := by
  obtain ⟨s', heq, hstep⟩ := appendToLast_spec h.ok hl ho b
  have htotal : c.replyBytes = charged c.out.heap c.block init + c.block ln.value := by
    rw [h.exact, hl, charged_append, charged_cons, charged_nil, used_raw ho, Nat.add_zero]
  have hrest : c.replyBytes - c.block ln.value = charged c.out.heap c.block init := by omega
  have hc := h.ok.cells ln.value
  rw [ho, hl] at hc
  simp only [refs_append, refs_cons, refs_nil, if_true, Nat.zero_add] at hc
  unfold appendToLast
  rw [discharge_eq (by rw [htotal]; exact Nat.le_add_left _ _), Except.bind]
  dsimp only
  by_cases hn : n > 1
  · have hne : ln.value ≠ c.out.nextObj := Nat.ne_of_lt (h.ok.lt ho)
    have hz : refs init c.out.nextObj = 0 := by
      have hfresh := h.ok.fresh_refs
      rw [hl, refs_append] at hfresh
      omega
    rw [dupLast_shared h.ok hl ho hn] at heq ⊢
    refine @sdscatlen_exact _ _ _ init ⟨ln.id, c.out.nextObj⟩ 1 t rfl ?_ hz ?_ (fun s hs => ?_)
    · show Function.update (Function.update _ _ _) _ _ _ = _
      rw [Function.update_of_ne (Ne.symm hne), Function.update_self]
    · -- what is left of the shared object keeps its string
      refine hrest.trans (charged_congr (fun x hx => ?_)).symm
      have hxn := value_ne hx hz
      by_cases hxv : x.value = ln.value
      · rw [hxv]
        refine @used_refcount _ _ _ _ _ _ ⟨n - 1, some (.raw t)⟩ ho ?_ rfl rfl
        show Function.update (Function.update _ _ _) _ _ _ = _
        rw [Function.update_self, Cell.decr, if_neg (by simp only; omega)]
      · refine used_congr ?_ rfl
        show Function.update (Function.update _ _ _) _ _ _ = _
        rw [Function.update_of_ne hxv, Function.update_of_ne hxn]
    · have hsame := heq.symm.trans hs
      cases hsame
      exact hstep.ok
  · have hz : refs init ln.value = 0 := by have := hc.2.1; omega
    rw [dupLast_own hl ho hn] at heq ⊢
    refine @sdscatlen_exact _ _ _ init ln n t hl ho hz hrest (fun s hs => ?_)
    have hsame := heq.symm.trans hs
    cases hsame
    exact hstep.ok

/-- A node at the end of the list is charged what its object is. -/
theorem addShared_exact (h : Exact c) {n : Nat} {r : Robj}
    (ho : c.out.heap o = some ⟨n, some r⟩) (hr : r.sds? = some b) :
    UnlessTooLarge Exact (addShared o c) := by
  obtain ⟨s', heq, hstep⟩ := addShared_spec h.ok ho hr
  have hs' : s' = listAddNodeTail (c.out.setCell o (some ⟨n + 1, some r⟩)) o := by
    simp only [incrRefCount, ho, Option.map_some, Option.some.injEq] at heq
    exact heq.symm
  unfold addShared
  rw [heq, Client.onOut, Except.bind]
  refine charge_unless ⟨hstep.ok, ?_⟩
  rw [hs']
  show c.replyBytes + _ = charged _ _ (c.out.reply ++ [⟨c.out.nextNode, o⟩])
  rw [charged_append, charged_cons, charged_nil, h.exact, Nat.add_zero]
  congr 1
  symm
  exact charged_refcount ho rfl

theorem addNew_exact (h : Exact c) {r : Robj} (hr : r.sds? = some b) :
    UnlessTooLarge Exact (addNew mem r c) := by
  obtain ⟨s', heq, hstep⟩ := addNewObject_spec h.ok hr
  have hs' : s' = listAddNodeTail (Output.createObject c.out (some r)).1 c.out.nextObj := by
    simp only [addNewObject, Option.some.injEq] at heq
    exact heq.symm
  have hok := hstep.ok
  rw [hs'] at hok
  refine charge_unless ⟨hok, ?_⟩
  show c.replyBytes + _ = charged _ _ (c.out.reply ++ [⟨c.out.nextNode, c.out.nextObj⟩])
  rw [charged_append, charged_cons, charged_nil, h.exact, Nat.add_zero]
  congr 1
  exact (charged_update h.ok.fresh_refs (fun x hx => Function.update_of_ne hx _ _)
    (fun x hx => Function.update_of_ne hx _ _)).symm

/-- **`_addReply…ToList`** keeps the counter exact. -/
theorem addToList_exact (h : Exact c) {newNode : Client → Except Fault Client}
    (hnew : UnlessTooLarge Exact (newNode c)) :
    UnlessTooLarge Exact (addToList mem limits c b newNode) := by
  have happend : UnlessTooLarge Exact (appendOrNew mem c b newNode) := by
    unfold appendOrNew
    cases hlast : c.out.reply.getLast? with
    | none => exact hnew
    | some ln =>
        have hl : c.out.reply = c.out.reply.dropLast ++ [ln] :=
          (List.dropLast_append_getLast? ln hlast).symm
        have hc := h.ok.cells ln.value
        have hpos : 0 < refs c.out.reply ln.value := refs_pos (by rw [hl]; simp)
        cases ho : c.out.heap ln.value with
        | none =>
            rw [ho] at hc
            exact absurd (show refs c.out.reply ln.value = 0 from hc) (by omega)
        | some cell =>
            obtain ⟨n, obj⟩ := cell
            cases obj with
            | none => simpa only [ho] using hnew
            | some r =>
                cases r with
                | raw t =>
                    simp only [ho]
                    split
                    · exact appendToLast_exact h hl ho b
                    · exact hnew
                | embstr t => simpa only [ho] using hnew
                | int value => simpa only [ho] using hnew
                | other type => simpa only [ho] using hnew
  unfold addToList
  split
  · exact h
  · exact happend.bind (fun _ h => asyncClose_exact h)

/-! ## Deferred lengths -/

/-- The string of an object is set: the others are charged what they were. -/
theorem charged_setString {l : List Node} (hz : refs l o = 0) (cell : Cell) (t : Bytes) :
    charged (setString mem c o cell t).out.heap (setString mem c o cell t).block l
      = charged c.out.heap c.block l :=
  charged_update hz (fun _ hx => Function.update_of_ne hx _ _)
    (fun _ hx => Function.update_of_ne hx _ _)

theorem used_setString (c : Client) (o : ObjId) (cell : Cell) (t : Bytes) :
    used (setString mem c o cell t).out.heap (setString mem c o cell t).block o
      = (setString mem c o cell t).block o :=
  used_raw (Function.update_self _ _ _)

/-- What the list is charged once the string of one of its objects is set. -/
theorem charged_set {before after : List Node} {ln : Node} (hzb : refs before ln.value = 0)
    (hza : refs after ln.value = 0) (cell : Cell) (t : Bytes) :
    charged (setString mem c ln.value cell t).out.heap (setString mem c ln.value cell t).block
        (before ++ ln :: after)
      = charged c.out.heap c.block before + (setString mem c ln.value cell t).block ln.value
        + charged c.out.heap c.block after := by
  rw [charged_append, charged_cons, charged_setString hzb, charged_setString hza, used_setString,
    Nat.add_assoc]

/-- The end of glueing: the text is charged, and the node behind it goes. -/
theorem dropNext_exact {before after : List Node} {ln next : Node} {m : Nat} {r : Robj}
    (hzb : refs before ln.value = 0) (hza : refs after ln.value = 0)
    (hne : next.value ≠ ln.value) (hon : c.out.heap next.value = some ⟨m, some r⟩) (hpos : 0 < m)
    (hlast : m = 1 → refs (before ++ ln :: after) next.value = 0) {cell : Cell} {t : Bytes}
    (hrest : c.replyBytes
      = charged c.out.heap c.block before + charged c.out.heap c.block after)
    (hok : ∀ s, decrRefCount { (setString mem c ln.value cell t).out with
      reply := before ++ ln :: after } next.value = some s → s.Ok) :
    UnlessTooLarge Exact (((setString mem c ln.value cell t).charge
        ((setString mem c ln.value cell t).sdsZmallocSize ln.value)).bind (fun c =>
      c.onOut (decrRefCount { c.out with reply := before ++ ln :: after } next.value))) := by
  obtain ⟨c₁, hc₁⟩ : ∃ c₁, c₁ = setString mem c ln.value cell t := ⟨_, rfl⟩
  have hset : charged c₁.out.heap c₁.block (before ++ ln :: after)
      = c₁.replyBytes + c₁.sdsZmallocSize ln.value := by
    rw [hc₁, charged_set hzb hza, show (setString mem c ln.value cell t).replyBytes = _ from hrest,
      Client.sdsZmallocSize]
    omega
  have hon₁ : c₁.out.heap next.value = some ⟨m, some r⟩ := by
    rw [hc₁, ← hon]
    exact Function.update_of_ne hne _ _
  rw [← hc₁] at hok ⊢
  refine (charge_unless (P := fun c₂ => c₂.out = c₁.out ∧ c₂.block = c₁.block ∧
    c₂.replyBytes = c₁.replyBytes + c₁.sdsZmallocSize ln.value) ⟨rfl, rfl, rfl⟩).bind
    (fun c₂ hc₂ => ?_)
  obtain ⟨hout, hblock, hbytes⟩ := hc₂
  have hdecr : decrRefCount { c₁.out with reply := before ++ ln :: after } next.value
      = some (Out.setCell { c₁.out with reply := before ++ ln :: after } next.value
          (Cell.decr ⟨m, some r⟩)) := decrRefCount_eq hon₁ hpos
  rw [hout, hdecr]
  refine ⟨hok _ hdecr, ?_⟩
  show c₂.replyBytes = charged (Function.update c₁.out.heap next.value _) c₂.block
    (before ++ ln :: after)
  rw [hbytes, ← hset, hblock]
  exact (charged_decr hon₁ hlast).symm

/-- The chunk behind is given up for the longer text. -/
theorem glueNext_exact (h : Exact c) {before after : List Node} {ln : Node} {n : Nat}
    {text : Bytes} (hl : c.out.reply = before ++ ln :: after)
    (ho : c.out.heap ln.value = some ⟨n, some (.raw text)⟩) (hzb : refs before ln.value = 0)
    (hza : refs after ln.value = 0) {cell : Cell} {s : Out}
    (hrun : Output.glueNext c.out before ln cell text after = some s) (hok : s.Ok) :
    UnlessTooLarge Exact (glueNext mem c before ln cell text after) := by
  cases after with
  | nil => exact h
  | cons next after =>
      have hne : next.value ≠ ln.value := value_ne List.mem_cons_self hza
      have hcell := h.ok.cells next.value
      unfold glueNext
      simp only [Output.glueNext] at hrun
      cases hon : c.out.heap next.value with
      | none => simp [hon] at hrun
      | some cn =>
          obtain ⟨m, obj⟩ := cn
          cases obj with
          | none =>
              simp only [hon]
              exact h
          | some r =>
              simp only [hon] at hrun ⊢
              cases hb : r.sds? with
              | none => simp [hb] at hrun
              | some b =>
                  simp only [hb] at hrun ⊢
                  rw [hon, hl] at hcell
                  simp only [refs_append, refs_cons, if_true, if_neg hne.symm] at hcell
                  have htotal := h.exact
                  rw [hl, charged_append, charged_cons, charged_cons, used_raw ho] at htotal
                  have hline : c.sdsZmallocSize ln.value ≤ c.replyBytes := by
                    rw [htotal, Client.sdsZmallocSize]
                    omega
                  have hnext : used c.out.heap c.block next.value
                      ≤ c.replyBytes - c.sdsZmallocSize ln.value := by
                    rw [htotal, Client.sdsZmallocSize]
                    omega
                  rw [discharge_eq hline, Except.bind]
                  dsimp only [getStringObjectSdsUsedMemory_eq]
                  rw [discharge_eq hnext, Except.bind]
                  obtain ⟨left, hleft⟩ : ∃ left, left = c.replyBytes - c.sdsZmallocSize ln.value
                      - used c.out.heap c.block next.value := ⟨_, rfl⟩
                  rw [← hleft]
                  refine @dropNext_exact mem { c with replyBytes := left } before after
                    ln next m r hzb ?_ hne hon hcell.1 (fun hm => ?_) cell (text ++ b) ?_
                    (fun s' hs' => ?_)
                  · rw [refs_cons] at hza
                    omega
                  · have hle := hcell.2.1
                    simp only [refs_append, refs_cons, if_neg hne.symm]
                    omega
                  · show left = charged c.out.heap c.block before + charged c.out.heap c.block after
                    have hsize : c.sdsZmallocSize ln.value = c.block ln.value := rfl
                    omega
                  · have hsame := hrun.symm.trans hs'
                    cases hsame
                    exact hok

/-- **`setDeferredMultiBulkLength`** charges the text, or the text with the chunk that is
glued to it in place of that chunk. -/
theorem populateLength_exact (h : Exact c) {id : Nat} (hopen : OpenNode c.out id) (length : Int) :
    UnlessTooLarge Exact (populateLength mem c id length) := by
  obtain ⟨before, ln, after, n, hl, hid, ho⟩ := OpenNode.split h.ok hopen
  obtain ⟨s', _, hrun, hstep, _⟩ := setDeferred_spec h.ok hl ho length
  have hspan := span_node h.ok hl
  have hc := h.ok.cells ln.value
  rw [ho, hl] at hc
  simp only [refs_append, refs_cons, if_true] at hc
  obtain ⟨hn, hk⟩ := hc
  have hzb : refs before ln.value = 0 := by omega
  have hza : refs after ln.value = 0 := by omega
  obtain ⟨text, htext⟩ : ∃ text, text = mbulkLen length := ⟨_, rfl⟩
  simp only [Output.setDeferredMultiBulkLength, hspan, ho, ← htext] at hrun
  have htotal : c.replyBytes
      = charged c.out.heap c.block before + charged c.out.heap c.block after := by
    rw [h.exact, hl, charged_append, charged_cons, show used c.out.heap c.block ln.value = 0 by
      simp only [used, ho], Nat.zero_add]
  unfold populateLength
  rw [← hid]
  simp only [hspan, ho, ← htext]
  have hset : Out.Ok (c.out.setCell ln.value (some ⟨n, some (.raw text)⟩)) := by
    refine HeapOk.setCell h.ok (h.ok.lt ho) ?_
    show CellOk _ (refs c.out.reply ln.value)
    rw [hl]
    simp only [refs_append, refs_cons, if_true]
    exact ⟨by omega, by omega, fun _ => rfl⟩
  refine (charge_unless (P := fun c₁ => Exact c₁ ∧
    c₁.out = c.out.setCell ln.value (some ⟨n, some (.raw text)⟩)) ⟨⟨hset, ?_⟩, rfl⟩).bind
    (fun c₁ hc₁ => ?_)
  · show c.replyBytes + _ = charged _ _ c.out.reply
    rw [hl, charged_set hzb hza, htotal, Client.sdsZmallocSize]
    omega
  · obtain ⟨h₁, hout⟩ := hc₁
    have hl₁ : c₁.out.reply = before ++ ln :: after := by
      rw [hout]
      exact hl
    have ho₁ : c₁.out.heap ln.value = some ⟨n, some (.raw text)⟩ := by
      rw [hout]
      exact Function.update_self _ _ _
    rw [← hout] at hrun
    exact glueNext_exact h₁ hl₁ ho₁ hzb hza hrun hstep.ok

/-! ## Writing to the socket -/

/-- What the loop of `writeToClient` keeps. -/
structure Sendable (c : Client) : Prop where
  exact : Exact c
  allSet : AllSet c.out

/-- The head of the list goes, with what it was charged. -/
theorem deleteHead_sendable (h : Sendable c) {ln : Node} {rest : List Node}
    (hl : c.out.reply = ln :: rest) :
    ∃ c', deleteHead c = .ok c' ∧ Sendable c' ∧ c'.out.buf = c.out.buf ∧ c'.out.reply = rest := by
  obtain ⟨s', heq, hstep, hrest⟩ := deleteHead_spec h.exact.ok hl
  have htotal := h.exact.exact
  rw [hl, charged_cons] at htotal
  have hcell := h.exact.ok.cells ln.value
  have hdecr : ∃ cell, c.out.heap ln.value = some cell ∧
      s' = Out.setCell { c.out with reply := rest } ln.value cell.decr := by
    cases ho : c.out.heap ln.value with
    | none =>
        simp only [Output.deleteHead, hl, decrRefCount, ho] at heq
        exact absurd heq (by simp)
    | some cell =>
        rw [ho] at hcell
        have hdec : decrRefCount { c.out with reply := rest } ln.value
            = some (Out.setCell { c.out with reply := rest } ln.value cell.decr) :=
          decrRefCount_eq ho hcell.pos
        simp only [Output.deleteHead, hl, hdec] at heq
        exact ⟨cell, rfl, (Option.some.inj heq).symm⟩
  obtain ⟨cell, ho, hs'⟩ := hdecr
  rw [ho, hl] at hcell
  have hle : used c.out.heap c.block ln.value ≤ c.replyBytes := by omega
  refine ⟨{ c with out := s', replyBytes := c.replyBytes - used c.out.heap c.block ln.value }, ?_,
    ⟨⟨hstep.ok, ?_⟩, ?_⟩, hstep.buf, hrest⟩
  · simp only [deleteHead, hl, heq, Client.onOut, Except.bind, getStringObjectSdsUsedMemory_eq]
    exact discharge_eq hle
  · show c.replyBytes - _ = charged s'.heap c.block s'.reply
    rw [htotal, Nat.add_sub_cancel_left, hrest, hs']
    refine (charged_decr ho (fun hone => ?_)).symm
    have hok := hcell
    simp only [refs_cons, if_true] at hok
    have hdec := hok.decr
    rw [Cell.decr, if_pos hone] at hdec
    exact hdec
  · intro x hx
    rw [show chunks s' = view c.out.heap rest from hstep.chunks] at hx
    refine h.allSet x ?_
    rw [chunks, hl, view_cons]
    exact List.mem_cons_of_mem _ hx

theorem deleteEmptyHeads_sendable : ∀ (l : List Node) {c : Client}, Sendable c →
    c.out.reply = l → ∃ c', deleteEmptyHeads l c = .ok c' ∧ Sendable c' ∧ c'.out.buf = c.out.buf := by
  intro l
  induction l with
  | nil => intro c h _; exact ⟨c, rfl, h, rfl⟩
  | cons ln rest ih =>
      intro c h hl
      obtain ⟨b, hb, _⟩ := head_chunk h.exact.ok h.allSet hl
      simp only [deleteEmptyHeads, hb]
      split
      · obtain ⟨c₁, heq, h₁, hbuf, hl₁⟩ := deleteHead_sendable h hl
        obtain ⟨c', heq', h', hbuf'⟩ := ih h₁ hl₁
        exact ⟨c', by rw [heq]; exact heq', h', hbuf'.trans hbuf⟩
      · exact ⟨c, rfl, h, rfl⟩

/-- A round that writes from the head of the list. -/
theorem writeHead_sendable (h : Sendable c) {ln : Node} {rest : List Node}
    (hl : c.out.reply = ln :: rest) (b : Bytes) (n : Nat) :
    ∃ c', writeHead c b n = .ok c' ∧ Sendable c' := by
  obtain ⟨c₁, hc₁⟩ : ∃ c₁ : Client, c₁ = { c with out := { c.out with
    socket := c.out.socket ++ (b.drop c.out.sentlen).take n, sentlen := c.out.sentlen + n } } :=
    ⟨_, rfl⟩
  have h₁ : Sendable c₁ := by
    rw [hc₁]
    exact ⟨⟨h.exact.ok, h.exact.exact⟩, h.allSet⟩
  unfold writeHead
  simp only [← hc₁]
  split
  · obtain ⟨c', heq, h', _⟩ := @deleteHead_sendable c₁ h₁ ln rest (by rw [hc₁]; exact hl)
    exact ⟨{ c' with out := { c'.out with sentlen := 0 } }, by rw [heq]; rfl,
      ⟨⟨h'.exact.ok, h'.exact.exact⟩, h'.allSet⟩⟩
  · exact ⟨c₁, rfl, h₁⟩

theorem writeBuffer_sendable (h : Sendable c) (n : Nat) :
    Sendable { c with out := writeBuffer c.out n } := by
  unfold writeBuffer
  dsimp only
  split
  · exact ⟨⟨h.exact.ok, h.exact.exact⟩, h.allSet⟩
  · exact ⟨⟨h.exact.ok, h.exact.exact⟩, h.allSet⟩

/-- **The loop of `writeToClient`** keeps the counter exact, whatever the socket takes. -/
theorem writeLoop_sendable : ∀ (tries : List WriteTry) (totwritten : Nat) {c : Client}, Sendable c →
    ∃ c', writeLoop tries totwritten c = .ok c' ∧ Sendable c' := by
  intro tries
  induction tries with
  | nil =>
      intro tot c h
      by_cases hbuf : c.out.buf = []
      · obtain ⟨c₁, heq, h₁, _⟩ := deleteEmptyHeads_sendable c.out.reply h rfl
        exact ⟨c₁, by rw [writeLoop, if_pos hbuf, heq]; rfl, h₁⟩
      · exact ⟨c, by rw [writeLoop, if_neg hbuf]; rfl, h⟩
  | cons t tries ih =>
      intro tot c h
      by_cases hbuf : c.out.buf = []
      · obtain ⟨c₁, heq, h₁, hbuf₁⟩ := deleteEmptyHeads_sendable c.out.reply h rfl
        rw [writeLoop, if_pos hbuf, heq, Except.bind]
        simp only [hbuf₁.trans hbuf]
        cases hl : c₁.out.reply with
        | nil => exact ⟨c₁, rfl, h₁⟩
        | cons ln rest =>
            obtain ⟨b, hb, _⟩ := head_chunk h₁.exact.ok h₁.allSet hl
            cases hroom : t.room with
            | none => exact ⟨c₁, by simp only [hb], h₁⟩
            | some room =>
                simp only [hb]
                split
                · exact ⟨c₁, rfl, h₁⟩
                · obtain ⟨c₂, heq₂, h₂⟩ := writeHead_sendable h₁ hl b
                    (min room (b.length - c₁.out.sentlen))
                  rw [heq₂, Except.bind]
                  split
                  · exact ⟨c₂, rfl, h₂⟩
                  · exact ih _ h₂
      · obtain ⟨x, xs, hcons⟩ := List.exists_cons_of_ne_nil hbuf
        rw [writeLoop, if_neg hbuf, Except.bind]
        simp only [hcons]
        cases hroom : t.room with
        | none => exact ⟨c, rfl, h⟩
        | some room =>
            simp only
            split
            · exact ⟨c, rfl, h⟩
            · rw [← hcons]
              have h₁ := writeBuffer_sendable h (min room (c.out.buf.length - c.out.sentlen))
              split
              · exact ⟨_, rfl, h₁⟩
              · exact ih _ h₁

/-- **`writeToClient`** -/
theorem writeToClient_exact (h : Sendable c) (tries : List WriteTry) :
    ∃ r, writeToClient c tries = .ok r ∧ ∀ c', r = some c' → Exact c' := by
  obtain ⟨c₁, heq, h₁⟩ := writeLoop_sendable tries 0 h
  unfold writeToClient
  rw [heq, Except.map]
  refine ⟨_, rfl, fun c' hc' => ?_⟩
  split at hc'
  · cases hc'
    exact h₁.exact
  · split at hc'
    · exact absurd hc' (by simp)
    · cases hc'
      exact ⟨h₁.exact.ok, h₁.exact.exact⟩

/-! ## Runs -/

theorem addDeferred_exact (h : Exact c) : Exact (addDeferredMultiBulkLength c).1 := by
  cases hacc : c.out.conn.accepts with
  | false =>
      have hskip : (Output.addDeferredMultiBulkLength c.out).1 = c.out := by
        simp [Output.addDeferredMultiBulkLength, hacc]
      refine ⟨?_, ?_⟩
      · show Out.Ok (Output.addDeferredMultiBulkLength c.out).1
        rw [hskip]
        exact h.ok
      · show c.replyBytes = charged (Output.addDeferredMultiBulkLength c.out).1.heap c.block
          (Output.addDeferredMultiBulkLength c.out).1.reply
        rw [hskip]
        exact h.exact
  | true =>
      have hstep := @addCreated_spec c.out h.ok none (fun r hr => absurd hr (by simp))
      have heq : (Output.addDeferredMultiBulkLength c.out).1
          = listAddNodeTail (Output.createObject c.out none).1 c.out.nextObj := by
        simp [Output.addDeferredMultiBulkLength, hacc, Output.createObject]
      refine ⟨?_, ?_⟩
      · show Out.Ok (Output.addDeferredMultiBulkLength c.out).1
        rw [heq]
        exact hstep.ok
      · show c.replyBytes = charged (Output.addDeferredMultiBulkLength c.out).1.heap c.block
          (Output.addDeferredMultiBulkLength c.out).1.reply
        rw [heq]
        show c.replyBytes = charged (Function.update c.out.heap c.out.nextObj (some ⟨1, none⟩))
          c.block (c.out.reply ++ [⟨c.out.nextNode, c.out.nextObj⟩])
        rw [charged_append, charged_cons, charged_nil, h.exact, show used (Function.update
          c.out.heap c.out.nextObj (some ⟨1, none⟩)) c.block c.out.nextObj = 0 by
            simp only [used, Function.update_self], Nat.add_zero]
        exact (charged_update h.ok.fresh_refs (fun x hx => Function.update_of_ne hx _ _)
          (fun _ _ => rfl)).symm

/-- **One step** keeps the counter exact. -/
theorem act_exact (h : Exact c) {a : Action} (hp : Proper c a) :
    UnlessTooLarge (fun r => ∀ c', r = some c' → Exact c') (act mem limits c a) := by
  have hsome : ∀ {r : Except Fault Client}, UnlessTooLarge Exact r →
      UnlessTooLarge (fun r => ∀ c', r = some c' → Exact c') (r.map some) := fun hr =>
    hr.map (fun _ h c' hc' => by cases hc'; exact h)
  cases a with
  | addReplyToBuffer b =>
      intro c' hc'
      cases hc'
      unfold Output.addReplyToBuffer
      split
      · exact ⟨h.ok, h.exact⟩
      · split
        · exact ⟨h.ok, h.exact⟩
        · split
          · exact ⟨h.ok, h.exact⟩
          · exact ⟨h.ok, h.exact⟩
  | addReplyObjectToList o =>
      obtain ⟨n, r, ho, _, hr⟩ := hp
      obtain ⟨b, hb⟩ := Option.isSome_iff_exists.mp hr
      simp only [act, addReplyObjectToList, ho, hb]
      exact hsome (addToList_exact h (addShared_exact h ho hb))
  | addReplySdsToList b =>
      exact hsome (addToList_exact h (addNew_exact (r := .raw b) h rfl))
  | addReplyStringToList b =>
      exact hsome (addToList_exact h (addNew_exact h (createStringObject_sds b)))
  | addDeferredMultiBulkLength =>
      intro c' hc'
      cases hc'
      exact addDeferred_exact h
  | setDeferredMultiBulkLength node length =>
      cases node with
      | none => exact hsome (show UnlessTooLarge Exact (.ok c) from h)
      | some id =>
          exact hsome ((populateLength_exact h hp length).bind (fun _ h => asyncClose_exact h))
  | writeToClient tries =>
      obtain ⟨r, heq, hr⟩ := writeToClient_exact ⟨h, hp⟩ tries
      rw [act, heq]
      exact hr
  | createObject r =>
      intro c' hc'
      cases hc'
      refine ⟨(createObject_spec h.ok r).ok, h.exact.trans ?_⟩
      exact (charged_update h.ok.fresh_refs (fun x hx => Function.update_of_ne hx _ _)
        (fun x hx => Function.update_of_ne hx _ _)).symm
  | incrRefCount o =>
      obtain ⟨cell, ho, hlt⟩ := hp
      rw [act, incrRefCount_eq ho]
      refine hsome (show Exact _ from ⟨retain_ok h.ok ho hlt, h.exact.trans ?_⟩)
      symm
      exact charged_refcount ho rfl
  | decrRefCount o =>
      obtain ⟨cell, ho, hlt⟩ := hp
      rw [act, decrRefCount_eq ho (by omega)]
      refine hsome (show Exact _ from ⟨release_ok h.ok ho hlt, h.exact.trans ?_⟩)
      exact (charged_decr ho (fun hone => by omega)).symm
  | setFlags flags pubsub =>
      intro c' hc'
      cases hc'
      exact ⟨h.ok, h.exact⟩
  | setTime unixtime =>
      intro c' hc'
      cases hc'
      exact ⟨h.ok, h.exact⟩

/-- **Every run** keeps the counter exact. -/
theorem run_exact : ∀ (actions : List Action) {c : Client}, Exact c → ProperRun mem limits c actions →
    UnlessTooLarge (fun r => ∀ c', r = some c' → Exact c') (run mem limits c actions) := by
  intro actions
  induction actions with
  | nil =>
      intro c h _ c' hc'
      cases hc'
      exact h
  | cons a actions ih =>
      intro c h hp
      obtain ⟨r, hr⟩ : ∃ r, r = act mem limits c a := ⟨_, rfl⟩
      have hstep := @act_exact mem limits c h a hp.1
      have hrest := hp.2
      rw [run]
      rw [← hr] at hstep hrest ⊢
      cases r with
      | error e => exact hstep
      | ok r =>
          cases r with
          | none => exact fun c' hc' => absurd hc' (by simp)
          | some c₁ => exact ih (hstep c₁ rfl) (hrest c₁ rfl)

theorem Connected.exact (h : Connected c) : Exact c := by
  refine ⟨h.out.good.ok, ?_⟩
  rw [h.replyBytes, h.out.reply, charged_nil]

/-- **The output buffer accounting.**  A run ends in no fault, an underflow in particular,
unless the output is too large for the counter, and in every state that it reaches
`reply_bytes` is what the objects on the reply list are charged. -/
theorem reply_bytes_exact (mem : Allocator) (limits : ClientType → ClientBufferLimitsConfig)
    (c : Client) (hc : Connected c) (actions : List Action)
    (hp : ProperRun mem limits c actions) :
    (∀ e, run mem limits c actions = .error e → e = .tooLarge) ∧
    (∀ c', run mem limits c actions = .ok (some c') →
      c'.replyBytes
        = (c'.out.reply.map (fun ln => c'.getStringObjectSdsUsedMemory ln.value)).sum ∧
      (c'.out.reply = [] → c'.replyBytes = 0)) := by
  have hrun := run_exact actions hc.exact hp
  refine ⟨fun e he => ?_, fun c' hc' => ?_⟩
  · rw [he] at hrun
    exact hrun
  · rw [hc'] at hrun
    have hexact := (hrun c' rfl).exact
    refine ⟨hexact, fun hnil => ?_⟩
    rw [hexact, hnil, charged_nil]

/-- An allocator that hands out what it is asked for. -/
def exactly : Allocator := ⟨fun _ n => n, fun _ _ => Nat.le_refl _⟩

/-- A client with these limits of its class that has just been created. -/
def created : Client where
  out := connected Flags.fresh
  block := fun _ => 0
  blocks := 0
  replyBytes := 0
  pubsub := false
  obufSoftLimitReachedTime := 0
  unixtime := 1
  reports := []

theorem created_connected : Connected created :=
  ⟨connected_fresh rfl, rfl, rfl, rfl⟩

/-- There is a client at the end, and it passes the test. -/
def endsIn (test : Client → Bool) : Except Fault (Option Client) → Bool
  | .ok (some c) => test c
  | _ => false

theorem of_endsIn {test : Client → Bool} {r : Except Fault (Option Client)}
    (h : endsIn test r = true) : ∃ c', r = .ok (some c') ∧ test c' = true := by
  cases r with
  | error e => cases h
  | ok r =>
      cases r with
      | none => cases h
      | some c' => exact ⟨c', rfl, h⟩

/-- A reply of six bytes, of which the socket takes two: the block of seven stays charged. -/
theorem reply_bytes_exact_short : ∃ c',
    run exactly (fun _ => ⟨0, 0, 0⟩) created
      [.addReplySdsToList (cstr "$-1\r\n"), .addReplySdsToList (cstr "!"),
        .writeToClient [⟨some 2, false⟩]] = .ok (some c') ∧
    (c'.out.reply.map (fun ln => c'.getStringObjectSdsUsedMemory ln.value)).sum = 7 := by
  have hp : ProperRun exactly (fun _ => ⟨0, 0, 0⟩) created
      [.addReplySdsToList (cstr "$-1\r\n"), .addReplySdsToList (cstr "!"),
        .writeToClient [⟨some 2, false⟩]] := by
    refine ⟨True.intro, fun c₁ h₁ => ⟨True.intro, fun c₂ h₂ => ⟨?_, fun _ _ => True.intro⟩⟩⟩
    cases h₁
    cases h₂
    intro x hx
    cases hx with
    | head => exact Option.some_ne_none _
    | tail _ hx => cases hx
  obtain ⟨c', hc', hbytes⟩ := @of_endsIn (fun c => c.replyBytes = 7)
    (run exactly (fun _ => ⟨0, 0, 0⟩) created
      [.addReplySdsToList (cstr "$-1\r\n"), .addReplySdsToList (cstr "!"),
        .writeToClient [⟨some 2, false⟩]]) (by decide +kernel)
  have hexact := (reply_bytes_exact _ _ _ created_connected _ hp).2 c' hc'
  exact ⟨c', hc', hexact.1.symm.trans (of_decide_eq_true hbytes)⟩

end OutputMemory

end RedisCore
