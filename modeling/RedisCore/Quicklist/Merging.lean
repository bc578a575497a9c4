/-
# `RedisCore.Quicklist.Merging` — joining nodes with their neighbours

`_quicklistMergeNodes` tries four merges around a node.  Each of them may free either node of its
pair, the one in the middle too, and the next one looks at the neighbours of what is left.  Every
merge is followed on the nodes: two that are next to each other become one, at one of the two
addresses, with the entries of both.

The test whether a merge is allowed adds the sizes in 32 bits.  Where the sum wraps around, it lets
through what no ziplist can hold.
-/
import RedisCore.Quicklist.Fill

namespace RedisCore

namespace Quicklist

open CInt Marked Ziplist

variable {pf : Platform} {ql ql' ql'' : QuickList} {p a b keep nokeep : Nat} {ns as bs : Shape}
  {es fs gs : List Entry} {node node' : QuicklistNode} {α : Type}

/-! ## Lists that are being changed -/

/-- A list with its nodes and their counters; how many entries there are in all is left open. -/
structure Woven (pf : Platform) (ql : QuickList) (ns : Shape) : Prop extends Nodes pf ql ns where
  counted : Counted ql ns
  len : ql.len = ns.length
  short : ∀ n ∈ ns, n.2.length < 2 ^ 16
  count : ql.count < 2 ^ 64
  linkable : ns.length < 2 ^ 32

theorem Loose.woven (h : Loose pf ql ns) : Woven pf ql ns :=
  ⟨h.toNodes, h.counted, h.len, h.short, h.count ▸ h.countable, h.linkable⟩

theorem Woven.loose (h : Woven pf ql ns) (hcount : ql.count = total ns) : Loose pf ql ns :=
  ⟨h.toNodes, h.counted, hcount, h.len, h.short, hcount ▸ h.count, h.linkable⟩

/-- The list in another form. -/
theorem Woven.framed (h : Woven pf ql ns) (hn : Nodes pf ql' ns) (hf : Frame ql ql') :
    Woven pf ql' ns where
  toNodes := hn
  counted := h.counted.frame hf
  len := hf.len.trans h.len
  short := h.short
  count := hf.count ▸ h.count
  linkable := h.linkable

/-- The number of entries and the parameters are as before. -/
structure Same (ql ql' : QuickList) : Prop where
  count : ql'.count = ql.count
  fill : ql'.fill = ql.fill
  compress : ql'.compress = ql.compress
  fresh : ql'.fresh = ql.fresh

theorem Same.refl (ql : QuickList) : Same ql ql := ⟨rfl, rfl, rfl, rfl⟩

theorem Same.trans (h : Same ql ql') (h' : Same ql' ql'') : Same ql ql'' :=
  ⟨h'.count.trans h.count, h'.fill.trans h.fill, h'.compress.trans h.compress,
    h'.fresh.trans h.fresh⟩

theorem Frame.same (h : Frame ql ql') : Same ql ql' := ⟨h.count, h.fill, h.compress, h.fresh⟩

/-! ## Two nodes become one -/

/-- The entries of two nodes in one ziplist. -/
def joined (es fs : List Entry) : List Entry := es ++ settle (lastLen 0 es) fs

theorem contents_joined : contents (joined es fs) = contents es ++ contents fs := by
  unfold joined
  rw [contents_append, contents_settle]

theorem length_joined : (joined es fs).length = es.length + fs.length := by
  unfold joined
  rw [List.length_append, length_settle]

theorem size_joined_le : size (joined es fs) ≤ roomy es + roomy fs := by
  have hle := @size_le_roomy (joined es fs)
  unfold joined at hle ⊢
  rwa [roomy_append, roomy_settle] at hle

/-- Which of two neighbours is kept. -/
def OneOf (keep nokeep a b : Nat) : Prop := keep = a ∧ nokeep = b ∨ keep = b ∧ nokeep = a

/-- One of two neighbours with other entries, and the other one is gone. -/
theorem Nodes.join (h : Nodes pf ql (as ++ (a, es) :: (b, fs) :: bs)) (hone : OneOf keep nokeep a b)
    (hnode : NodeHolds pf node gs) :
    Nodes pf { (ql.setNode keep node).setNode nokeep node' with nodes := ql.nodes.erase nokeep }
      (as ++ (keep, gs) :: bs) := by
  rcases hone with ⟨rfl, rfl⟩ | ⟨rfl, rfl⟩
  · have hset := h.setNode hnode
    rw [show as ++ (keep, gs) :: (nokeep, fs) :: bs = (as ++ [(keep, gs)]) ++ (nokeep, fs) :: bs by simp]
      at hset
    have herase := hset.erase node'
    rw [List.append_assoc] at herase
    exact herase
  · rw [show as ++ (nokeep, es) :: (keep, fs) :: bs = (as ++ [(nokeep, es)]) ++ (keep, fs) :: bs by simp]
      at h
    have hset := h.setNode hnode
    rw [List.append_assoc, List.singleton_append] at hset
    exact hset.erase node'

theorem Counted.join (hc : Counted ql (as ++ (a, es) :: (b, fs) :: bs))
    (h : Nodes pf ql (as ++ (a, es) :: (b, fs) :: bs)) (hone : OneOf keep nokeep a b)
    (hnode : NodeHolds pf node gs) (hcount : node.count = gs.length) :
    Counted { (ql.setNode keep node).setNode nokeep node' with nodes := ql.nodes.erase nokeep }
      (as ++ (keep, gs) :: bs) := by
  rcases hone with ⟨rfl, rfl⟩ | ⟨rfl, rfl⟩
  · have hset := h.setNode hnode
    have hcset := hc.setNode h hcount
    rw [show as ++ (keep, gs) :: (nokeep, fs) :: bs = (as ++ [(keep, gs)]) ++ (nokeep, fs) :: bs by simp]
      at hset hcset
    have herase := hcset.erase hset node' (ql.nodes.erase nokeep)
    rw [List.append_assoc] at herase
    exact herase
  · rw [show as ++ (nokeep, es) :: (keep, fs) :: bs = (as ++ [(nokeep, es)]) ++ (keep, fs) :: bs by simp]
      at h hc
    have hset := h.setNode hnode
    have hcset := hc.setNode h hcount
    rw [List.append_assoc, List.singleton_append] at hset hcset
    exact hcset.erase hset node' (ql.nodes.erase nokeep)

/-- `quicklistDecompressNode`, which closes nothing. -/
theorem gives_decompressNode_keeping {Q : Unit → QuickList → Prop} (h : Nodes pf ql ns)
    (hn : (p, es) ∈ ns) (hQ : ∀ ql', Reopened pf ns p es ql ql' → (∀ q, ql.Raw q → ql'.Raw q) → Q () ql') :
    Gives (quicklistDecompressNode pf (some p)) Q ql := by
  have hp := h.mem hn
  refine yields_of_wp (wp_quicklistDecompressNode hp h.ready fun ql' hopen hraw hkeep => ?_)
  have hrec := hopen.toRecoded
  have h' := (h.recoded hrec).reopened hn hraw
  exact hQ ql' ⟨h'.nodes, hrec.frame, h'.raw⟩ hkeep

/-- Both nodes of a pair are open. -/
structure OpenPair (pf : Platform) (ql ql' : QuickList) (a b : Nat) (es fs : List Entry) (ns : Shape) :
    Prop where
  nodes : Nodes pf ql' ns
  frame : Frame ql ql'
  first : ∃ zl, (ql'.node a).zl = .raw zl ∧ Ziplist.Represents zl es
  second : ∃ zl, (ql'.node b).zl = .raw zl ∧ Ziplist.Represents zl fs

theorem gives_openPair (h : Nodes pf ql ns) (hmemA : (a, es) ∈ ns) (hmemB : (b, fs) ∈ ns) :
    Gives (quicklistDecompressNode pf (some a)) (fun _ ql₁ =>
      Gives (quicklistDecompressNode pf (some b)) (fun _ ql₂ => OpenPair pf ql ql₂ a b es fs ns) ql₁) ql := by
  refine gives_decompressNode_keeping h hmemA fun ql₁ hopenA _ => ?_
  refine gives_decompressNode_keeping hopenA.nodes hmemB fun ql₂ hopenB hkeep => ?_
  obtain ⟨zlA, hzlA, -⟩ := hopenA.raw
  obtain ⟨first, hfirst, -, hrepA⟩ := (hopenB.nodes.holds _ hmemA).of_raw
    (hkeep a (show (ql₁.node a).zl.IsRaw by rw [hzlA]; trivial))
  exact ⟨hopenB.nodes, hopenA.frame.trans hopenB.frame, ⟨first, hfirst, hrepA⟩, hopenB.raw⟩

/-- The node that is kept gets a ziplist, and the other one goes. -/
theorem gives_keepOne {Q : Nat → QuickList → Prop} {zl zl' : Bytes}
    (h : Woven pf ql (as ++ (a, es) :: (b, fs) :: bs)) (hone : OneOf keep nokeep a b)
    (hlen : ziplistLen zl = some (gs.length, zl')) (hrep : Ziplist.Represents zl' gs)
    (hshort : gs.length < 2 ^ 16)
    (hQ : ∀ ql', Woven pf ql' (as ++ (keep, gs) :: bs) → Same ql ql' → Q keep ql') :
    Gives (do
      let (count, zl) ← orFail .memory (ziplistLen zl)
      setZl keep zl
      setCount keep count
      quicklistNodeUpdateSz keep
      setCount nokeep 0
      quicklistDelNode pf nokeep
      quicklistCompress pf keep
      return keep) Q ql := by
  have hpA := h.toNodes.mem (mem_self (m := (a, es)))
  have hpB : b ∈ ql.nodes := h.toNodes.mem
    (n := (b, fs)) (List.mem_append_right _ (List.mem_cons_of_mem _ List.mem_cons_self))
  have hp : keep ∈ ql.nodes := by
    rcases hone with ⟨rfl, -⟩ | ⟨rfl, -⟩
    · exact hpA
    · exact hpB
  have hp' : nokeep ∈ ql.nodes := by
    rcases hone with ⟨-, rfl⟩ | ⟨-, rfl⟩
    · exact hpB
    · exact hpA
  obtain ⟨node, hnode⟩ : ∃ node : QuicklistNode, node = ⟨.raw zl', 11 + size gs,
    ((gs.length : Int) % 2 ^ 16).toNat, (ql.node keep).recompress⟩ := ⟨_, rfl⟩
  have hholds : NodeHolds pf node gs := by
    rw [hnode]
    exact nodeHolds_raw hrep
  have hcount : node.count = gs.length := by
    rw [hnode]
    dsimp only
    omega
  unfold Gives
  rw [hlen, yields_bind, yields_orFail]
  dsimp only
  rw [yields_bind]
  refine gives_setZl hp ?_
  rw [yields_bind]
  refine gives_setCount hp ?_
  rw [setNode_setNode, setNode_same, yields_bind]
  refine gives_updateSz hp (by rw [setNode_same]) hrep ?_
  rw [setNode_setNode, setNode_same, yields_bind]
  refine gives_setCount hp' ?_
  dsimp only
  rw [← hnode, yields_bind]
  have hmany := h.len
  have hlinkable := h.linkable
  rw [List.length_append, List.length_cons, List.length_cons] at hmany hlinkable
  refine gives_quicklistDelNode hp' (h.toNodes.join hone hholds)
    (h.counted.join h.toNodes hone hholds hcount) ?_ fun ql₁ hunlinked => ?_
  · show ql.len ≤ _
    rw [List.length_append, List.length_cons]
    omega
  have hcountSame : ql₁.count = ql.count := by
    have hlt := h.count
    rw [hunlinked.count, setNode_same]
    show toULong ((ql.count : Int) - 0) = _
    unfold toULong
    omega
  have h₁ : Woven pf ql₁ (as ++ (keep, gs) :: bs) := by
    refine ⟨hunlinked.nodes, hunlinked.counted, ?_, fun n hn => ?_, hcountSame ▸ h.count, ?_⟩
    · rw [hunlinked.len, List.length_append, List.length_cons]
      show toUInt ((ql.len : Int) - 1) = _
      unfold toUInt
      omega
    · rcases mem_middle hn with rfl | hin
      · exact hshort
      · refine h.short n ?_
        rcases List.mem_append.mp hin with hl | hr
        · exact List.mem_append_left _ hl
        · exact List.mem_append_right _ (List.mem_cons_of_mem _ (List.mem_cons_of_mem _ hr))
    · rw [List.length_append, List.length_cons]
      omega
  rw [yields_bind]
  refine gives_quicklistCompress h₁.toNodes (h₁.toNodes.mem (mem_self (m := (keep, gs)))) ?_
    fun ql₂ hrec h₂ _ => ?_
  · rw [h₁.len, h₁.nodes, List.length_map]
    omega
  · rw [yields_pure]
    refine hQ ql₂ (h₁.framed h₂ hrec.frame) (Same.trans ⟨hcountSame, ?_, ?_, ?_⟩ hrec.frame.same)
    · exact hunlinked.fill
    · exact hunlinked.compress
    · exact hunlinked.fresh

/-- `_quicklistZiplistMerge` of two neighbours. -/
theorem gives_ziplistMerge {Q : Nat → QuickList → Prop}
    (h : Woven pf ql (as ++ (a, es) :: (b, fs) :: bs)) (hfs : fs ≠ [])
    (hshort : es.length + fs.length < 2 ^ 16) (hsmall : 11 + size (joined es fs) < 2 ^ 32)
    (hQ : ∀ keep nokeep ql', Woven pf ql' (as ++ (keep, joined es fs) :: bs) → Same ql ql' →
      OneOf keep nokeep a b → Q keep ql') :
    Gives (quicklistZiplistMerge pf a b) Q ql := by
  have hmemA : (a, es) ∈ as ++ (a, es) :: (b, fs) :: bs := mem_self
  have hmemB : (b, fs) ∈ as ++ (a, es) :: (b, fs) :: bs :=
    List.mem_append_right _ (List.mem_cons_of_mem _ List.mem_cons_self)
  unfold Gives quicklistZiplistMerge
  rw [yields_bind]
  refine Gives.mono (gives_openPair h.toNodes hmemA hmemB) fun _ ql₀ hthen => ?_
  rw [yields_bind]
  refine Gives.mono hthen fun _ ql₁ hopen => ?_
  obtain ⟨first, hfirst, hrepA⟩ := hopen.first
  obtain ⟨second, hsecond, hrepB⟩ := hopen.second
  obtain ⟨merged, append, hmerge, hrep⟩ := ziplistMerge_spec pf.mem hrepA hrepB hfs hsmall
  obtain ⟨zl, hlen, hrep'⟩ := ziplistLen_spec hrep
  rw [yields_bind]
  refine gives_rawAt (hopen.nodes.mem hmemA) hfirst ?_
  rw [yields_bind]
  refine gives_rawAt (hopen.nodes.mem hmemB) hsecond ?_
  rw [hmerge, yields_bind, yields_orFail]
  dsimp only
  have hone : OneOf (if append then a else b) (if append then b else a) a b := by
    cases append with
    | true => exact .inl ⟨rfl, rfl⟩
    | false => exact .inr ⟨rfl, rfl⟩
  have hshort' : (joined es fs).length < 2 ^ 16 := by
    rw [length_joined]
    exact hshort
  exact gives_keepOne (h.framed hopen.nodes hopen.frame) hone hlen hrep' hshort'
    fun ql₂ h₂ hsame => hQ _ _ ql₂ h₂ (hopen.frame.same.trans hsame) hone

/-! ## The merges around a node -/

/-- The test whether two ziplists may become one. -/
def Joins (fill : Int) (es fs : List Entry) : Prop :=
  quicklistNodeAllowMerge (some ⟨.raw [], 11 + size es, es.length, false⟩)
    (some ⟨.raw [], 11 + size fs, fs.length, false⟩) fill = true

instance (fill : Int) (es fs : List Entry) : Decidable (Joins fill es fs) :=
  inferInstanceAs (Decidable (_ = true))

/-- The ziplists before one, from the nearest on, and that one, after the test of the two. -/
def joinLeft (fill : Int) (es : List Entry) : List (List Entry) → List (List Entry) × List Entry
  | [] => ([], es)
  | fs :: before => if Joins fill fs es then (before, joined fs es) else (fs :: before, es)

/-- A ziplist and those behind it, after the test of the first two. -/
def joinRight (fill : Int) (es : List Entry) : List (List Entry) → List Entry × List (List Entry)
  | [] => (es, [])
  | fs :: behind => if Joins fill es fs then (joined es fs, behind) else (es, fs :: behind)

/-- The ziplists before the one in the middle. -/
def joinBefore (fill : Int) : List (List Entry) → List (List Entry)
  | [] => []
  | es :: before => (joinLeft fill es before).2 :: (joinLeft fill es before).1

/-- The ziplists behind the one in the middle. -/
def joinBehind (fill : Int) : List (List Entry) → List (List Entry)
  | [] => []
  | es :: behind => (joinRight fill es behind).1 :: (joinRight fill es behind).2

/-- What `_quicklistMergeNodes` makes of the ziplists of a list; those before the one in the middle
are given from the nearest on. -/
def mergedAround (fill : Int) (before : List (List Entry)) (es : List Entry)
    (behind : List (List Entry)) : List (List Entry) :=
  let left := joinLeft fill es (joinBefore fill before)
  let right := joinRight fill left.2 (joinBehind fill behind)
  left.1.reverse ++ right.1 :: right.2

/-- The strings of some ziplists. -/
def strings (ess : List (List Entry)) : List Bytes := ess.flatMap contents

theorem elements_eq_strings (ns : Shape) : elements ns = strings (ns.map Prod.snd) := by
  unfold elements strings
  rw [List.flatMap_map]

@[simp] theorem strings_cons (es : List Entry) (ess : List (List Entry)) :
    strings (es :: ess) = contents es ++ strings ess := List.flatMap_cons

@[simp] theorem strings_append (ess ess' : List (List Entry)) :
    strings (ess ++ ess') = strings ess ++ strings ess' := List.flatMap_append

@[simp] theorem strings_nil : strings [] = [] := rfl

theorem strings_joinLeft (fill : Int) (es : List Entry) (before : List (List Entry)) :
    strings (joinLeft fill es before).1.reverse ++ contents (joinLeft fill es before).2 =
      strings before.reverse ++ contents es := by
  cases before with
  | nil => rfl
  | cons fs before =>
      rw [joinLeft]
      split
      · simp [contents_joined]
      · rfl

theorem strings_joinRight (fill : Int) (es : List Entry) (behind : List (List Entry)) :
    contents (joinRight fill es behind).1 ++ strings (joinRight fill es behind).2 =
      contents es ++ strings behind := by
  cases behind with
  | nil => rfl
  | cons fs behind =>
      rw [joinRight]
      split
      · simp [contents_joined]
      · rfl

theorem strings_joinBefore (fill : Int) (before : List (List Entry)) :
    strings (joinBefore fill before).reverse = strings before.reverse := by
  cases before with
  | nil => rfl
  | cons es before =>
      have h := strings_joinLeft fill es before
      simpa [joinBefore] using h

theorem strings_joinBehind (fill : Int) (behind : List (List Entry)) :
    strings (joinBehind fill behind) = strings behind := by
  cases behind with
  | nil => rfl
  | cons es behind => exact strings_joinRight fill es behind

/-- The merges leave the strings as they are. -/
theorem strings_mergedAround (fill : Int) (before : List (List Entry)) (es : List Entry)
    (behind : List (List Entry)) :
    strings (mergedAround fill before es behind) =
      strings before.reverse ++ (contents es ++ strings behind) := by
  unfold mergedAround
  dsimp only
  rw [strings_append, strings_cons, strings_joinRight, strings_joinBehind, ← List.append_assoc,
    strings_joinLeft, strings_joinBefore, List.append_assoc]

section kept

variable {fill : Int} {R : List Entry → Prop}

theorem forall_joinLeft {before : List (List Entry)}
    (hjoin : ∀ es fs, R es → R fs → Joins fill es fs → R (joined es fs)) (hes : R es)
    (hbefore : ∀ fs ∈ before, R fs) :
    R (joinLeft fill es before).2 ∧ ∀ fs ∈ (joinLeft fill es before).1, R fs := by
  cases before with
  | nil => exact ⟨hes, hbefore⟩
  | cons fs before =>
      have hfs := hbefore fs List.mem_cons_self
      rw [joinLeft]
      split
      · next hjoins =>
          exact ⟨hjoin fs es hfs hes hjoins, fun gs hgs => hbefore gs (List.mem_cons_of_mem _ hgs)⟩
      · exact ⟨hes, hbefore⟩

theorem forall_joinRight {behind : List (List Entry)}
    (hjoin : ∀ es fs, R es → R fs → Joins fill es fs → R (joined es fs)) (hes : R es)
    (hbehind : ∀ fs ∈ behind, R fs) :
    R (joinRight fill es behind).1 ∧ ∀ fs ∈ (joinRight fill es behind).2, R fs := by
  cases behind with
  | nil => exact ⟨hes, hbehind⟩
  | cons fs behind =>
      have hfs := hbehind fs List.mem_cons_self
      rw [joinRight]
      split
      · next hjoins =>
          exact ⟨hjoin es fs hes hfs hjoins, fun gs hgs => hbehind gs (List.mem_cons_of_mem _ hgs)⟩
      · exact ⟨hes, hbehind⟩

/-- What holds of ziplists and of the allowed joins of such holds of the ziplists afterwards. -/
theorem forall_mergedAround {before behind : List (List Entry)}
    (hjoin : ∀ es fs, R es → R fs → Joins fill es fs → R (joined es fs))
    (hbefore : ∀ fs ∈ before, R fs) (hes : R es) (hbehind : ∀ fs ∈ behind, R fs) :
    ∀ fs ∈ mergedAround fill before es behind, R fs := by
  have hleft : ∀ fs ∈ joinBefore fill before, R fs := by
    cases before with
    | nil => exact hbefore
    | cons gs before =>
        have hparts := forall_joinLeft hjoin (hbefore gs List.mem_cons_self)
          fun fs hfs => hbefore fs (List.mem_cons_of_mem _ hfs)
        exact List.forall_mem_cons.mpr hparts
  have hright : ∀ fs ∈ joinBehind fill behind, R fs := by
    cases behind with
    | nil => exact hbehind
    | cons gs behind =>
        have hparts := forall_joinRight hjoin (hbehind gs List.mem_cons_self)
          fun fs hfs => hbehind fs (List.mem_cons_of_mem _ hfs)
        exact List.forall_mem_cons.mpr hparts
  obtain ⟨hcenter, hrest⟩ := forall_joinLeft hjoin hes hleft
  obtain ⟨htarget, hrest'⟩ := forall_joinRight hjoin hcenter hright
  intro fs hfs
  rcases List.mem_append.mp hfs with hin | hin
  · exact hrest fs (List.mem_reverse.mp hin)
  · exact List.forall_mem_cons.mpr ⟨htarget, hrest'⟩ fs hin

end kept

theorem joined_ne_nil (hfs : fs ≠ []) : joined es fs ≠ [] := by
  intro hnil
  have hlen := @length_joined es fs
  rw [hnil, List.length_nil] at hlen
  exact hfs (List.length_eq_zero_iff.mp (by omega))

/-! ### The test -/

theorem joins_iff {fill : Int} {n m : QuicklistNode} (hn : n.sz = 11 + size es)
    (hn' : n.count = es.length) (hm : m.sz = 11 + size fs) (hm' : m.count = fs.length) :
    quicklistNodeAllowMerge (some n) (some m) fill = true ↔ Joins fill es fs := by
  unfold Joins quicklistNodeAllowMerge
  dsimp only
  rw [hn, hn', hm, hm']

theorem quicklistNodeAllowMerge_comm (a b : Option QuicklistNode) (fill : Int) :
    quicklistNodeAllowMerge a b fill = quicklistNodeAllowMerge b a fill := by
  unfold quicklistNodeAllowMerge
  rcases a with _ | m
  · rcases b with _ | n <;> rfl
  · rcases b with _ | n
    · rfl
    · dsimp only
      rw [Nat.add_comm m.sz, Nat.add_comm m.count]

/-- The largest size that a negative fill allows. -/
theorem meetsOptimizationRequirement_le {sz : Nat} {fill : Int}
    (h : meetsOptimizationRequirement sz fill = true) : sz ≤ 65536 := by
  unfold meetsOptimizationRequirement at h
  split at h
  · cases h
  · split at h
    · next level hlevel =>
        have hle := of_decide_eq_true h
        have hmem := List.mem_of_getElem? hlevel
        have hall : ∀ level ∈ optimizationLevel, level ≤ 65536 := by decide
        exact Nat.le_trans hle (hall level hmem)
    · cases h

/-- Two ziplists of this size can be added in 32 bits. -/
def Addable (es : List Entry) : Prop := 11 + size es ≤ 2 ^ 31 + 5

/-- What passes the test is small, if the sum does not wrap around. -/
theorem Joins.size_le {fill : Int} (h : Joins fill es fs) (hes : Addable es) (hfs : Addable fs) :
    11 + (size es + size fs) ≤ 65536 := by
  unfold Addable at hes hfs
  unfold Joins quicklistNodeAllowMerge at h
  dsimp only at h
  have hsum : toUInt ((11 + size es + (11 + size fs) : Nat) - 11 : Int) = 11 + (size es + size fs) := by
    unfold toUInt
    omega
  rw [hsum] at h
  split at h
  · next hmeets => exact meetsOptimizationRequirement_le hmeets
  · split at h
    · cases h
    · next hsmall =>
        unfold SIZE_SAFETY_LIMIT at hsmall
        omega

theorem Joins.fits {fill : Int} (h : Joins fill es fs) (hes : Addable es) (hfs : Addable fs) :
    es.length + fs.length < 2 ^ 16 ∧ 11 + size (joined es fs) ≤ 2 ^ 18 := by
  have hle := h.size_le hes hfs
  have hjoined := @size_joined_le es fs
  have hroomy := @roomy_le es
  have hroomy' := @roomy_le fs
  have hlen := @length_le_size es
  have hlen' := @length_le_size fs
  omega

theorem Joins.addable {fill : Int} (h : Joins fill es fs) (hes : Addable es) (hfs : Addable fs) :
    Addable (joined es fs) := by
  have hle := (h.fits hes hfs).2
  unfold Addable
  omega

/-! ### One merge after the other -/

theorem gives_nodeOpt {Q : Option QuicklistNode → QuickList → Prop} {o : Option Nat}
    (hmem : ∀ q, o = some q → q ∈ ql.nodes) (hQ : Q (o.map ql.node) ql) : Gives (nodeOpt o) Q ql := by
  cases o with
  | none => exact hQ
  | some q =>
      unfold Gives nodeOpt
      rw [yields_bind]
      exact gives_nodeAt (hmem q rfl) hQ

theorem gives_mergeAllowed {Q : Bool → QuickList → Prop} {x y : Option Nat}
    (hx : ∀ q, x = some q → q ∈ ql.nodes) (hy : ∀ q, y = some q → q ∈ ql.nodes)
    (hQ : Q (quicklistNodeAllowMerge (x.map ql.node) (y.map ql.node) ql.fill) ql) :
    Gives (mergeAllowed x y) Q ql := by
  unfold Gives mergeAllowed
  rw [yields_bind, yields_get, yields_bind]
  refine gives_nodeOpt hx ?_
  rw [yields_bind]
  exact gives_nodeOpt hy hQ

/-- Without one of the two nodes nothing happens. -/
theorem gives_tryMerge_none {Q : Option Nat → QuickList → Prop} {x y left right : Option Nat}
    (hx : ∀ q, x = some q → q ∈ ql.nodes) (hy : ∀ q, y = some q → q ∈ ql.nodes)
    (hnone : x = none ∨ y = none) (hQ : Q none ql) : Gives (tryMerge pf x y left right) Q ql := by
  have hno : quicklistNodeAllowMerge (x.map ql.node) (y.map ql.node) ql.fill = false := by
    rcases hnone with rfl | rfl
    · rfl
    · cases x <;> rfl
  unfold Gives tryMerge
  rw [yields_bind]
  refine gives_mergeAllowed hx hy ?_
  rw [hno, if_neg Bool.false_ne_true]
  exact hQ

/-- Two neighbours are merged if the test, which is given them in one order or the other, lets
them. -/
theorem gives_tryMerge {Q : Option Nat → QuickList → Prop} {x y : Option Nat}
    (h : Woven pf ql (as ++ (a, es) :: (b, fs) :: bs))
    (hpair : x = some a ∧ y = some b ∨ x = some b ∧ y = some a)
    (hfs : Joins ql.fill es fs → fs ≠ []) (hadd : Addable es) (hadd' : Addable fs)
    (hno : ¬ Joins ql.fill es fs → Q none ql)
    (hyes : Joins ql.fill es fs → ∀ keep nokeep ql', Woven pf ql' (as ++ (keep, joined es fs) :: bs) →
      Same ql ql' → OneOf keep nokeep a b → Q (some keep) ql') :
    Gives (tryMerge pf x y (some a) (some b)) Q ql := by
  have hmemA : (a, es) ∈ as ++ (a, es) :: (b, fs) :: bs := mem_self
  have hmemB : (b, fs) ∈ as ++ (a, es) :: (b, fs) :: bs :=
    List.mem_append_right _ (List.mem_cons_of_mem _ List.mem_cons_self)
  have htest := @joins_iff es fs ql.fill (ql.node a) (ql.node b) (h.holds _ hmemA).sz
    (h.counted _ hmemA) (h.holds _ hmemB).sz (h.counted _ hmemB)
  have hcode : quicklistNodeAllowMerge (x.map ql.node) (y.map ql.node) ql.fill = true ↔
      Joins ql.fill es fs := by
    rcases hpair with ⟨rfl, rfl⟩ | ⟨rfl, rfl⟩
    · exact htest
    · rw [quicklistNodeAllowMerge_comm]
      exact htest
  have hmem : ∀ q, x = some q ∨ y = some q → q ∈ ql.nodes := by
    rintro q hq
    rcases hpair with ⟨rfl, rfl⟩ | ⟨rfl, rfl⟩
    · rcases hq with hq | hq <;> obtain rfl := Option.some.inj hq
      · exact h.toNodes.mem hmemA
      · exact h.toNodes.mem hmemB
    · rcases hq with hq | hq <;> obtain rfl := Option.some.inj hq
      · exact h.toNodes.mem hmemB
      · exact h.toNodes.mem hmemA
  unfold Gives tryMerge
  rw [yields_bind]
  refine gives_mergeAllowed (fun q hq => hmem q (.inl hq)) (fun q hq => hmem q (.inr hq)) ?_
  by_cases hjoins : Joins ql.fill es fs
  · have hfits := hjoins.fits hadd hadd'
    rw [if_pos (hcode.mpr hjoins)]
    unfold deref
    rw [yields_bind, yields_orFail, yields_bind, yields_orFail, yields_bind]
    refine gives_ziplistMerge h (hfs hjoins) hfits.1 (by omega) fun keep nokeep ql' h' hsame hone => ?_
    exact hyes hjoins keep nokeep ql' h' hsame hone
  · rw [if_neg (mt hcode.mp hjoins)]
    exact hno hjoins

/-- The node before another one. -/
theorem Nodes.prev (h : Nodes pf ql (as ++ (p, es) :: bs)) :
    ql.prev p = as.getLast?.map Prod.fst := by
  have hnodes := h.nodes
  rw [List.map_append, List.map_cons] at hnodes
  rcases List.eq_nil_or_concat' as with rfl | ⟨l, n, rfl⟩
  · unfold QuickList.prev
    rw [hnodes, List.map_nil, List.nil_append, List.idxOf_cons_self, if_pos rfl]
    rfl
  · rw [List.map_append, List.map_singleton, List.append_assoc, List.singleton_append] at hnodes
    rw [@prev_getElem? ql p h.nodup (l.map Prod.fst).length]
    · rw [hnodes, List.getElem?_append_right (Nat.le_refl _), Nat.sub_self, List.getLast?_concat]
      rfl
    · rw [hnodes, List.getElem?_append_right (Nat.le_succ _), Nat.succ_sub (Nat.le_refl _), Nat.sub_self]
      rfl

theorem gives_prevPrev {Q : Option Nat → QuickList → Prop} {cs : Shape} (h : Nodes pf ql (as ++ cs))
    (hQ : Q (as.dropLast.getLast?.map Prod.fst) ql) :
    Gives (linkOf prevOf (as.getLast?.map Prod.fst)) Q ql := by
  rcases List.eq_nil_or_concat' as with rfl | ⟨l, n, rfl⟩
  · exact hQ
  · rw [List.append_assoc, List.singleton_append] at h
    rw [List.dropLast_concat] at hQ
    rw [List.getLast?_concat]
    refine gives_prevOf (h.mem (n := n) mem_self) ?_
    rw [h.prev]
    exact hQ

theorem gives_nextNext {Q : Option Nat → QuickList → Prop} {cs : Shape} (h : Nodes pf ql (cs ++ bs))
    (hQ : Q (bs.tail.head?.map Prod.fst) ql) :
    Gives (linkOf nextOf (bs.head?.map Prod.fst)) Q ql := by
  rcases bs with _ | ⟨n, bs⟩
  · exact hQ
  · refine gives_nextOf (h.mem (n := n) mem_self) ?_
    rw [h.next, List.head?_map]
    exact hQ

/-- The first merge: of the two nodes before. -/
theorem gives_mergeBefore {Q : Option Nat → QuickList → Prop} {cs : Shape}
    (h : Woven pf ql (as ++ cs)) (hfull : ∀ n, as.getLast? = some n → n.2 ≠ [])
    (hadd : ∀ n ∈ as.reverse.take 2, Addable n.2)
    (hQ : ∀ o ql' as', Woven pf ql' (as' ++ cs) → Same ql ql' →
      (as'.map Prod.snd).reverse = joinBefore ql.fill (as.map Prod.snd).reverse →
      (∀ n, as'.getLast? = some n → Addable n.2) → Q o ql') :
    Gives (tryMerge pf (as.getLast?.map Prod.fst) (as.dropLast.getLast?.map Prod.fst)
      (as.dropLast.getLast?.map Prod.fst) (as.getLast?.map Prod.fst)) Q ql := by
  rcases List.eq_nil_or_concat' as with rfl | ⟨l, ⟨b, fs⟩, rfl⟩
  · refine gives_tryMerge_none (fun q hq => (by cases hq)) (fun q hq => (by cases hq)) (.inl rfl) ?_
    exact hQ none ql [] h (.refl ql) rfl fun n hn => (by cases hn)
  rw [List.getLast?_concat, List.dropLast_concat, Option.map_some]
  rcases List.eq_nil_or_concat' l with rfl | ⟨l, ⟨a, es⟩, rfl⟩
  · refine gives_tryMerge_none (fun q hq => ?_) (fun q hq => (by cases hq)) (.inr rfl) ?_
    · obtain rfl := Option.some.inj hq
      exact h.toNodes.mem (n := (b, fs)) (List.mem_append_left _ (by simp))
    · refine hQ none ql [(b, fs)] h (.refl ql) rfl fun n hn => ?_
      obtain rfl := Option.some.inj hn
      exact hadd _ (by simp)
  rw [List.getLast?_concat, Option.map_some]
  have hshape : l ++ [(a, es)] ++ [(b, fs)] ++ cs = l ++ (a, es) :: (b, fs) :: cs := by simp
  have haddA : Addable es := hadd (a, es) (by simp)
  have haddB : Addable fs := hadd (b, fs) (by simp)
  have hfullB : fs ≠ [] := hfull (b, fs) List.getLast?_concat
  rw [hshape] at h
  refine gives_tryMerge h (.inr ⟨rfl, rfl⟩) (fun _ => hfullB) haddA haddB (fun hno => ?_)
    fun hjoins keep nokeep ql' h' hsame _ => ?_
  · refine hQ none ql (l ++ [(a, es)] ++ [(b, fs)]) (hshape ▸ h) (.refl ql) ?_ fun n hn => ?_
    · simp [joinBefore, joinLeft, if_neg hno]
    · rw [List.getLast?_concat] at hn
      obtain rfl := Option.some.inj hn
      exact haddB
  · refine hQ (some keep) ql' (l ++ [(keep, joined es fs)]) (by simpa using h') hsame ?_ fun n hn => ?_
    · simp [joinBefore, joinLeft, if_pos hjoins]
    · rw [List.getLast?_concat] at hn
      obtain rfl := Option.some.inj hn
      exact hjoins.addable haddA haddB

/-- The second merge: of the two nodes behind. -/
theorem gives_mergeBehind {Q : Option Nat → QuickList → Prop} {cs : Shape}
    (h : Woven pf ql (cs ++ bs)) (hfull : ∀ n ∈ bs.take 2, n.2 ≠ [])
    (hadd : ∀ n ∈ bs.take 2, Addable n.2)
    (hQ : ∀ o ql' bs', Woven pf ql' (cs ++ bs') → Same ql ql' →
      bs'.map Prod.snd = joinBehind ql.fill (bs.map Prod.snd) →
      (∀ n, bs'.head? = some n → Addable n.2 ∧ n.2 ≠ []) → Q o ql') :
    Gives (tryMerge pf (bs.head?.map Prod.fst) (bs.tail.head?.map Prod.fst)
      (bs.head?.map Prod.fst) (bs.tail.head?.map Prod.fst)) Q ql := by
  rcases bs with _ | ⟨⟨a, es⟩, l⟩
  · refine gives_tryMerge_none (fun q hq => (by cases hq)) (fun q hq => (by cases hq)) (.inl rfl) ?_
    exact hQ none ql [] h (.refl ql) rfl fun n hn => (by cases hn)
  rw [List.head?_cons, List.tail_cons, Option.map_some]
  have haddA : Addable es := hadd (a, es) (by simp)
  have hfullA : es ≠ [] := hfull (a, es) (by simp)
  rcases l with _ | ⟨⟨b, fs⟩, l⟩
  · refine gives_tryMerge_none (fun q hq => ?_) (fun q hq => (by cases hq)) (.inr rfl) ?_
    · obtain rfl := Option.some.inj hq
      exact h.toNodes.mem (n := (a, es)) (List.mem_append_right _ List.mem_cons_self)
    · refine hQ none ql [(a, es)] h (.refl ql) rfl fun n hn => ?_
      obtain rfl := Option.some.inj hn
      exact ⟨haddA, hfullA⟩
  rw [List.head?_cons, Option.map_some]
  have haddB : Addable fs := hadd (b, fs) (by simp)
  have hfullB : fs ≠ [] := hfull (b, fs) (by simp)
  refine gives_tryMerge h (.inl ⟨rfl, rfl⟩) (fun _ => hfullB) haddA haddB (fun hno => ?_)
    fun hjoins keep nokeep ql' h' hsame _ => ?_
  · refine hQ none ql ((a, es) :: (b, fs) :: l) h (.refl ql) ?_ fun n hn => ?_
    · simp [joinBehind, joinRight, if_neg hno]
    · obtain rfl := Option.some.inj hn
      exact ⟨haddA, hfullA⟩
  · refine hQ (some keep) ql' ((keep, joined es fs) :: l) h' hsame ?_ fun n hn => ?_
    · simp [joinBehind, joinRight, if_pos hjoins]
    · obtain rfl := Option.some.inj hn
      exact ⟨hjoins.addable haddA haddB, joined_ne_nil hfullB⟩

/-- The third merge: of the node in the middle with the one before it. -/
theorem gives_mergeCenter {Q : Option Nat → QuickList → Prop}
    (h : Woven pf ql (as ++ (p, es) :: bs))
    (hfull : ∀ n, as.getLast? = some n → Joins ql.fill n.2 es → es ≠ [])
    (hadd : Addable es) (hadd' : ∀ n, as.getLast? = some n → Addable n.2)
    (hQ : ∀ o ql' as', Woven pf ql'
        (as' ++ (o.getD p, (joinLeft ql.fill es (as.map Prod.snd).reverse).2) :: bs) → Same ql ql' →
      (as'.map Prod.snd).reverse = (joinLeft ql.fill es (as.map Prod.snd).reverse).1 →
      Addable (joinLeft ql.fill es (as.map Prod.snd).reverse).2 → Q o ql') :
    Gives (tryMerge pf (some p) (as.getLast?.map Prod.fst) (as.getLast?.map Prod.fst) (some p)) Q ql := by
  rcases List.eq_nil_or_concat' as with rfl | ⟨l, ⟨a, fs⟩, rfl⟩
  · refine gives_tryMerge_none (fun q hq => ?_) (fun q hq => (by cases hq)) (.inr rfl) ?_
    · obtain rfl := Option.some.inj hq
      exact h.toNodes.mem (n := (p, es)) mem_self
    · exact hQ none ql [] h (.refl ql) rfl hadd
  rw [List.getLast?_concat, Option.map_some]
  have haddA : Addable fs := hadd' (a, fs) List.getLast?_concat
  have hleft : joinLeft ql.fill es ((l ++ [(a, fs)]).map Prod.snd).reverse =
      if Joins ql.fill fs es then ((l.map Prod.snd).reverse, joined fs es)
      else (fs :: (l.map Prod.snd).reverse, es) := by
    simp [joinLeft]
  rw [hleft] at hQ
  have h₁ : Woven pf ql (l ++ (a, fs) :: (p, es) :: bs) := by simpa using h
  refine gives_tryMerge h₁ (.inr ⟨rfl, rfl⟩) (hfull (a, fs) List.getLast?_concat) haddA hadd
    (fun hno => ?_) fun hjoins keep nokeep ql' h' hsame _ => ?_
  · rw [if_neg hno] at hQ
    exact hQ none ql (l ++ [(a, fs)]) h (.refl ql) (by simp) hadd
  · rw [if_pos hjoins] at hQ
    exact hQ (some keep) ql' l h' hsame rfl (hjoins.addable haddA hadd)

/-- The last merge: of what is in the middle with the node behind it. -/
theorem gives_mergeTarget {Q : Option Nat → QuickList → Prop}
    (h : Woven pf ql (as ++ (p, es) :: bs)) (hadd : Addable es)
    (hnext : ∀ n, bs.head? = some n → Addable n.2 ∧ n.2 ≠ [])
    (hQ : ∀ o ql' ms, Woven pf ql' (as ++ ms) → Same ql ql' →
      ms.map Prod.snd = (joinRight ql.fill es (bs.map Prod.snd)).1 ::
        (joinRight ql.fill es (bs.map Prod.snd)).2 → Q o ql') :
    Gives (tryMerge pf (some p) (bs.head?.map Prod.fst) (some p) (bs.head?.map Prod.fst)) Q ql := by
  rcases bs with _ | ⟨⟨b, fs⟩, l⟩
  · refine gives_tryMerge_none (fun q hq => ?_) (fun q hq => (by cases hq)) (.inr rfl) ?_
    · obtain rfl := Option.some.inj hq
      exact h.toNodes.mem (n := (p, es)) mem_self
    · exact hQ none ql [(p, es)] h (.refl ql) rfl
  rw [List.head?_cons, Option.map_some]
  obtain ⟨haddB, hfullB⟩ := hnext (b, fs) rfl
  have hright : joinRight ql.fill es (((b, fs) :: l).map Prod.snd) =
      if Joins ql.fill es fs then (joined es fs, l.map Prod.snd) else (es, fs :: l.map Prod.snd) := rfl
  rw [hright] at hQ
  refine gives_tryMerge h (.inl ⟨rfl, rfl⟩) (fun _ => hfullB) hadd haddB (fun hno => ?_)
    fun hjoins keep nokeep ql' h' hsame _ => ?_
  · rw [if_neg hno] at hQ
    exact hQ none ql ((p, es) :: (b, fs) :: l) h (.refl ql) rfl
  · rw [if_pos hjoins] at hQ
    exact hQ (some keep) ql' ((keep, joined es fs) :: l) h' hsame rfl

/-- The nodes around the one in the middle can be merged: they can be added, and none that would be
put behind another one is empty. -/
structure Ripe (fill : Int) (as : Shape) (es : List Entry) (bs : Shape) : Prop where
  before : ∀ n ∈ as.reverse.take 2, Addable n.2
  center : Addable es
  behind : ∀ n ∈ bs.take 2, Addable n.2 ∧ n.2 ≠ []
  fullBefore : ∀ n, as.getLast? = some n → n.2 ≠ []
  fullCenter : es = [] → ∀ fs, (joinBefore fill (as.map Prod.snd).reverse).head? = some fs →
    ¬ Joins fill fs []

/-- `_quicklistMergeNodes` makes of the nodes what the test says. -/
theorem gives_quicklistMergeNodes {Q : Unit → QuickList → Prop}
    (h : Woven pf ql (as ++ (p, es) :: bs)) (hripe : Ripe ql.fill as es bs)
    (hQ : ∀ ql' ns', Woven pf ql' ns' → Same ql ql' →
      ns'.map Prod.snd = mergedAround ql.fill (as.map Prod.snd).reverse es (bs.map Prod.snd) → Q () ql') :
    Gives (quicklistMergeNodes pf p) Q ql := by
  have hp : p ∈ ql.nodes := h.toNodes.mem (n := (p, es)) mem_self
  unfold Gives quicklistMergeNodes
  -- the four neighbours are looked up
  rw [yields_bind]
  refine gives_prevOf hp ?_
  rw [h.toNodes.prev, yields_bind]
  refine gives_prevPrev h.toNodes ?_
  rw [yields_bind]
  refine gives_nextOf hp ?_
  have hcs : as ++ (p, es) :: bs = (as ++ [(p, es)]) ++ bs := by simp
  rw [h.toNodes.next, List.head?_map, yields_bind]
  refine gives_nextNext (hcs ▸ h.toNodes) ?_
  rw [yields_bind]
  -- the two before, and the two behind
  refine gives_mergeBefore h hripe.fullBefore hripe.before fun _ ql₁ as₁ h₁ hsame₁ hleft hlast => ?_
  have hcs₁ : as₁ ++ (p, es) :: bs = (as₁ ++ [(p, es)]) ++ bs := by simp
  rw [hcs₁] at h₁
  rw [yields_bind]
  refine gives_mergeBehind h₁ (fun n hn => (hripe.behind n hn).2) (fun n hn => (hripe.behind n hn).1)
    fun _ ql₂ bs₂ h₂ hsame₂ hright hhead => ?_
  rw [List.append_assoc, List.singleton_append] at h₂
  rw [hsame₁.fill] at hright
  -- then the one in the middle
  rw [yields_bind]
  refine gives_prevOf (h₂.toNodes.mem (n := (p, es)) mem_self) ?_
  have hfill₂ := hsame₂.fill.trans hsame₁.fill
  rw [h₂.toNodes.prev, yields_bind]
  refine gives_mergeCenter h₂ (fun n hn hjoins hnil => ?_) hripe.center hlast
    fun o ql₃ as₃ h₃ hsame₃ hrest hadd => ?_
  · refine hripe.fullCenter hnil n.2 ?_ (by rw [← hfill₂, ← hnil]; exact hjoins)
    rw [← hleft, List.head?_reverse, List.getLast?_map, hn]
    rfl
  rw [hfill₂, hleft] at h₃ hrest hadd
  dsimp only
  rw [yields_bind]
  refine gives_nextOf (h₃.toNodes.mem (n := (o.getD p, _)) mem_self) ?_
  have hfill₃ := hsame₃.fill.trans hfill₂
  rw [h₃.toNodes.next, List.head?_map, yields_bind]
  refine gives_mergeTarget h₃ hadd hhead fun _ ql₄ ms h₄ hsame₄ hms => ?_
  rw [hfill₃, hright] at hms
  rw [yields_pure]
  refine hQ ql₄ _ h₄ (((hsame₁.trans hsame₂).trans hsame₃).trans hsame₄) ?_
  unfold mergedAround
  dsimp only
  rw [List.map_append, hms, ← hrest, List.reverse_reverse]

/-- The nodes within two of a place. -/
def around (ns : Shape) (i : Nat) : Shape := (ns.take (i + 3)).drop (i - 2)

theorem mem_around_middle {n m : Nat × List Entry} (hn : n ∈ as.reverse.take 2 ∨ n = m ∨ n ∈ bs.take 2) :
    n ∈ around (as ++ m :: bs) as.length := by
  have htake : (as ++ m :: bs).take (as.length + 3) = as ++ m :: bs.take 2 := by
    rw [List.take_length_add_append, List.take_succ_cons]
  have hdrop : (as ++ m :: bs.take 2).drop (as.length - 2) =
      as.drop (as.length - 2) ++ m :: bs.take 2 := by
    rw [List.drop_append_of_le_length (Nat.sub_le _ _)]
  unfold around
  rw [htake, hdrop]
  rcases hn with hn | rfl | hn
  · rw [List.take_reverse, List.mem_reverse] at hn
    exact List.mem_append_left _ hn
  · exact mem_self
  · exact List.mem_append_right _ (List.mem_cons_of_mem _ hn)

/-- What a merge leaves of the nodes, whatever it does to the ziplists. -/
structure OneKept (pf : Platform) (keep nokeep : Nat) (zl : Bytes) (ql ql' : QuickList) : Prop where
  gone : nokeep ∈ ql.nodes
  nodes : ql'.nodes = ql.nodes.erase nokeep
  fill : ql'.fill = ql.fill
  len : ql'.len = toUInt ((ql.len : Int) - 1)
  ready : Ready pf ql'
  others : ∀ q, q ≠ keep → q ≠ nokeep → RecodedNode pf (ql.node q) (ql'.node q)
  kept : keep ≠ nokeep → ∃ n zl', ziplistLen zl = some (n, zl') ∧ (ziplistBlobLen zl' = some zl'.length →
    Holds pf (ql'.node keep) zl' ∧ zl'.length = (ql'.node keep).sz)

/-- A merge leaves a node less. -/
theorem OneKept.less {zl : Bytes} (h : OneKept pf keep nokeep zl ql ql') :
    ql'.nodes.length + 1 = ql.nodes.length := by
  have hpos := List.length_pos_of_mem h.gone
  rw [h.nodes, List.length_erase_of_mem h.gone]
  omega

theorem yields_keepOne {zl : Bytes} (h : Ready pf ql) (hlen : ql.len ≤ ql.nodes.length)
    (hsome : 0 < ql.len) :
    yields (fun _ => True) (do
      let (count, zl) ← orFail .memory (ziplistLen zl)
      setZl keep zl
      setCount keep count
      quicklistNodeUpdateSz keep
      setCount nokeep 0
      quicklistDelNode pf nokeep
      quicklistCompress pf keep
      return keep) (fun r ql' => r = keep ∧ OneKept pf keep nokeep zl ql ql') ql := by
  unfold quicklistNodeUpdateSz setZl setCount Quicklist.setNode quicklistDelNode Quicklist.addCount
  simp only [yields_bind]
  refine yields_orFail_of fun r hr => ?_
  refine yields_nodeAt_of fun _ => ?_
  rw [yields_modify]
  refine yields_nodeAt_of fun _ => ?_
  rw [yields_modify, setNode_setNode, setNode_same]
  refine yields_rawAt_of fun zl' _ hzl' => yields_orFail_of fun sz hsz => yields_nodeAt_of fun _ => ?_
  rw [yields_modify, setNode_setNode, setNode_same]
  refine yields_nodeAt_of fun hp => ?_
  rw [yields_modify]
  refine yields_nodeAt_of fun _ => ?_
  rw [yields_modify]
  rw [setNode_same] at hzl'
  -- nothing else has changed so far
  obtain ⟨node, hnode⟩ : ∃ node : QuicklistNode, node = ⟨.raw r.2, sz, ((r.1 : Int) % 2 ^ 16).toNat,
    (ql.node keep).recompress⟩ := ⟨_, rfl⟩
  rw [← hnode]
  have hkept : Kept pf ql (ql.setNode keep node) :=
    .setNode (fun _ => by rw [hnode]; trivial) fun _ => sound_of_raw (by rw [hnode]; trivial)
  have hkept' := hkept.trans (@Kept.setNode pf (ql.setNode keep node) nokeep
    { (ql.setNode keep node).node nokeep with count := ((0 : Int) % 2 ^ 16).toNat } id id)
  obtain ⟨ql₁, hql₁⟩ : ∃ ql₁, ql₁ = (ql.setNode keep node).setNode nokeep
    { (ql.setNode keep node).node nokeep with count := ((0 : Int) % 2 ^ 16).toNat } := ⟨_, rfl⟩
  have hothers : ∀ q, q ≠ keep → q ≠ nokeep → ql₁.node q = ql.node q := fun q hk hn => by
    rw [hql₁, setNode_other hn, setNode_other hk]
  have hkeep : keep ≠ nokeep → ql₁.node keep = node := fun hne => by
    rw [hql₁, setNode_other hne, setNode_same]
  have hfill : ql₁.fill = ql.fill := by
    rw [hql₁]
    rfl
  rw [← hql₁] at hkept' ⊢
  have h₁ := h.kept hkept'
  have hmem : nokeep ∈ ql₁.nodes := hkept'.nodes ▸ hp
  have hless := List.length_erase_of_mem hmem
  have hpos := List.length_pos_of_mem hmem
  have hnodes₁ := hkept'.nodes
  have hlen₁ := hkept'.len
  have hready : Ready pf { ql₁ with nodes := ql₁.nodes.erase nokeep } :=
    ⟨h₁.nodup.erase nokeep, fun q hq => h₁.sound q (List.mem_of_mem_erase hq)⟩
  refine yields_of_wp (wp_quicklistCompressTo hready (fun q hq => (by cases hq)) ?_ (.inl trivial)
    fun ql₂ hrec _ => ?_)
  · show ql₁.len ≤ (ql₁.nodes.erase nokeep).length + 1
    rw [hnodes₁] at hless hpos ⊢
    omega
  have hnodes₂ : ql₂.nodes = ql₁.nodes.erase nokeep := hrec.nodes
  have hlen₂ : ql₂.len = ql₁.len := hrec.len
  have hdown : toUInt ((ql₂.len : Int) - 1) + 1 ≤ ql.nodes.length := by
    rw [hlen₂, hlen₁]
    unfold toUInt
    omega
  rw [yields_modify, yields_modify]
  refine yields_mono (@yields_quicklistCompress pf _ _ ⟨?_, ?_⟩ ?_) fun _ ql₃ hrec₃ => ?_
  · exact (hready.recoded hrec).nodup
  · exact (hready.recoded hrec).sound
  · show toUInt ((ql₂.len : Int) - 1) ≤ ql₂.nodes.length + 1
    rw [hnodes₂, hless, hnodes₁]
    omega
  · have hnodes₃ : ql₃.nodes = ql.nodes.erase nokeep := by
      rw [hrec₃.nodes]
      exact hnodes₂.trans (congrArg (List.erase · nokeep) hnodes₁)
    have hrecoded : ∀ q, RecodedNode pf (ql₁.node q) (ql₃.node q) := fun q =>
      (hrec.node q).trans (hrec₃.node q)
    refine ⟨rfl, hkept'.nodes ▸ hmem, hnodes₃, ?_, ?_, ?_, fun q hk hn => ?_, fun hne => ?_⟩
    · exact hrec₃.fill.trans (hrec.fill.trans hfill)
    · rw [hrec₃.len]
      show toUInt ((ql₂.len : Int) - 1) = _
      rw [hlen₂, hlen₁]
    · exact ⟨hrec₃.nodes ▸ (hready.recoded hrec).nodup, fun q hq => (hrec₃.node q).sound
        ((hready.recoded hrec).sound q (hrec₃.nodes ▸ hq))⟩
    · rw [← hothers q hk hn]
      exact hrecoded q
    · refine ⟨r.1, r.2, hr, fun hblob => ?_⟩
      obtain rfl : r.2 = zl' := by
        cases hzl'
        rfl
      rw [hblob] at hsz
      have hsame : r.2.length = node.sz := by
        rw [hnode]
        exact Option.some.inj hsz
      have hk := hrecoded keep
      rw [hkeep hne] at hk
      refine ⟨hk.holds r.2 ?_ hsame, hsame.trans hk.sz.symm⟩
      rw [hnode]
      rfl

/-- `_quicklistZiplistMerge` of two neighbours, whatever becomes of their ziplists. -/
theorem yields_ziplistMerge (h : Woven pf ql ns) (hmemA : (a, es) ∈ ns) (hmemB : (b, fs) ∈ ns) :
    yields (fun _ => True) (quicklistZiplistMerge pf a b)
      (fun _ ql' => ql'.nodes.length + 1 = ns.length) ql := by
  unfold quicklistZiplistMerge
  rw [yields_bind]
  refine yields_mono (yields_weaken (gives_openPair h.toNodes hmemA hmemB) fun _ hno => hno.elim)
    fun _ ql₀ hthen => ?_
  rw [yields_bind]
  refine yields_mono (yields_weaken hthen fun _ hno => hno.elim) fun _ ql₁ hopen => ?_
  have h₁ := h.framed hopen.nodes hopen.frame
  have hmany : ql₁.nodes.length = ns.length := by rw [h₁.nodes, List.length_map]
  rw [yields_bind]
  refine yields_rawAt_of fun first _ _ => ?_
  rw [yields_bind]
  refine yields_rawAt_of fun second _ _ => ?_
  rw [yields_bind]
  refine yields_orFail_of fun r _ => ?_
  rw [← hmany]
  refine yields_mono (yields_keepOne h₁.toNodes.ready (by rw [h₁.len, hmany]) ?_) fun _ ql' hone => hone.2.less
  rw [h₁.len]
  exact List.length_pos_of_mem hmemA

/-- Of two nodes whose sizes add up to a little more than 32 bits hold, one is left. -/
theorem yields_mergeNodes_wrap (h : Woven pf ql [(a, es), (b, fs)]) (hfill : ql.fill = -2)
    (hes : size es = 2 ^ 31 + 5) (hfs : size fs = 2 ^ 31 + 5) :
    yields (fun _ => True) (quicklistMergeNodes pf a) (fun _ ql' => ql'.nodes.length = 1) ql := by
  have hmemA : a ∈ ql.nodes := h.toNodes.mem (n := (a, es)) (by simp)
  have hmemB : b ∈ ql.nodes := h.toNodes.mem (n := (b, fs)) (by simp)
  have hprev : ql.prev a = none := @Nodes.prev pf ql a [] [(b, fs)] es h.toNodes
  have hnext : ql.next a = some b := @Nodes.next pf ql a [] [(b, fs)] es h.toNodes
  have hnextB : ql.next b = none := @Nodes.next pf ql b [(a, es)] [] fs h.toNodes
  have hA := h.holds (a, es) (by simp)
  have hB := h.holds (b, fs) (by simp)
  have hallow : quicklistNodeAllowMerge (some (ql.node a)) (some (ql.node b)) ql.fill = true := by
    rw [joins_iff hA.sz (h.counted _ (by simp)) hB.sz (h.counted _ (by simp)), hfill]
    unfold Joins quicklistNodeAllowMerge
    dsimp only
    rw [hes, hfs, if_pos]
    decide
  have hnone : ∀ q, none = some q → q ∈ ql.nodes := fun q hq => (by cases hq)
  have hsomeA : ∀ q, some a = some q → q ∈ ql.nodes := fun q hq => Option.some.inj hq ▸ hmemA
  have hsomeB : ∀ q, some b = some q → q ∈ ql.nodes := fun q hq => Option.some.inj hq ▸ hmemB
  have hlift : ∀ {α : Type} {m : M α} {R : α → QuickList → Prop}, Gives m R ql →
      yields (fun _ => True) m R ql := fun hm => yields_weaken hm fun _ hno => hno.elim
  unfold quicklistMergeNodes
  rw [yields_bind]
  refine hlift (gives_prevOf hmemA ?_)
  rw [hprev, yields_bind]
  refine hlift (@gives_prevPrev pf ql [] _ [(a, es), (b, fs)] h.toNodes ?_)
  rw [yields_bind]
  refine hlift (gives_nextOf hmemA ?_)
  rw [hnext, yields_bind]
  refine hlift (gives_nextOf hmemB ?_)
  rw [hnextB, yields_bind]
  refine hlift (gives_tryMerge_none hnone hnone (.inl rfl) ?_)
  rw [yields_bind]
  refine hlift (gives_tryMerge_none hsomeB hnone (.inr rfl) ?_)
  rw [yields_bind]
  refine hlift (gives_prevOf hmemA ?_)
  rw [hprev, yields_bind]
  refine hlift (gives_tryMerge_none hsomeA hnone (.inr rfl) ?_)
  dsimp only [Option.getD_none]
  rw [yields_bind]
  refine hlift (gives_nextOf hmemA ?_)
  rw [hnext, yields_bind]
  unfold tryMerge
  rw [yields_bind]
  refine hlift (gives_mergeAllowed hsomeA hsomeB ?_)
  rw [Option.map_some, Option.map_some, hallow, if_pos rfl]
  unfold deref
  rw [yields_bind, yields_orFail, yields_bind, yields_orFail, yields_bind]
  refine yields_mono (@yields_ziplistMerge pf ql a b [(a, es), (b, fs)] es fs h (by simp) (by simp))
    fun _ ql₁ hless => ?_
  rw [yields_pure, yields_pure]
  exact Nat.succ.inj hless

/-- No ziplist holds two strings of this length. -/
theorem not_merged_pair {e : Entry} (h : Stores pf ql [(a, [e]), (b, [e])]) (hfill : ql.fill = -2)
    (hlong : e.bytes.length = 2147483647) (hsize : size [e] = 2 ^ 31 + 5) :
    ¬ Gives (quicklistMergeNodes pf a) (fun _ ql' => ql'.count = ql.count ∧
      ∃ ns', Stores pf ql' ns' ∧ elements ns' = elements [(a, [e]), (b, [e])]) ql := by
  intro hgives
  have hone := yields_mergeNodes_wrap h.loose.woven hfill hsize hsize
  obtain ⟨_, ql', ⟨-, ns', hstores', helements⟩, hone⟩ := Gives.exists (yields_and_of_ok hgives hone)
  rw [hstores'.nodes, List.length_map] at hone
  obtain ⟨⟨p, es⟩, rfl⟩ := List.length_eq_one_iff.mp hone
  simp only [elements_cons, elements_nil, contents_cons, contents_nil, List.append_nil,
    List.cons_append, List.nil_append] at helements
  obtain ⟨zl, -, -, hrep⟩ := hstores'.holds _ List.mem_cons_self
  refine not_represents_pair ?_ ?_ ?_ es helements hrep
  all_goals
    rw [hlong]
    decide

/-- Two nodes whose sizes do not add up in 32 bits. -/
def twoHuge : List (List Entry) :=
  [[strEntry false hugeString hugeString_lt], [strEntry false hugeString hugeString_lt]]

theorem shapeOf_twoHuge : shapeOf twoHuge = [(0, [strEntry false hugeString hugeString_lt]),
    (1, [strEntry false hugeString hugeString_lt])] := by
  unfold shapeOf twoHuge
  simp only [List.zipIdx_cons, List.zipIdx_nil, List.map_cons, List.map_nil]
  rfl

theorem size_hugeEntry : size [strEntry false hugeString hugeString_lt] = 2 ^ 31 + 5 := by
  have hlen : (zipEncodeLength 0 hugeString.length).length = 5 := by
    rw [length_hugeString]
    rfl
  rw [size_cons, size_nil, rawLen_strEntry, hlen, length_hugeString]
  rfl

theorem twoHuge_stores (pf : Platform) : Stores pf (listOf twoHuge (-2) 0) (shapeOf twoHuge) := by
  refine listOf_stores (fun es hes => ?_) (by decide) (by decide)
  obtain rfl : es = [strEntry false hugeString hugeString_lt] := by
    unfold twoHuge at hes
    simpa using hes
  refine ⟨List.cons_ne_nil _ _, by decide, ⟨fun _ => by decide, trivial⟩, ?_⟩
  rw [size_hugeEntry]
  decide

end Quicklist

end RedisCore
