/-
# `RedisCore.Quicklist.EndsRuns` — no ziplist function reads a compressed node

Every call of the interface, in any order, leaves the ends of the list raw and applies
ziplist functions to raw nodes only, as long as there is no mark.  A copy of a list has
compressed nodes at its end while it is made, which the sweep opens again.

The mark is needed: `lset` on a node that was opened by `lindex` when it was further inside
compresses it after it has become the head.
-/
import RedisCore.Quicklist.Ends

namespace RedisCore

namespace Quicklist

open CInt Marked Ziplist

variable {pf : Platform} {ql ql' orig copy : QuickList} {p q : Nat}

/-! ## Copying -/

theorem insertBeside_tail {l : List Nat} {t new : Nat} (h : l.Nodup)
    (ht : l.getLast? = some t) : insertBeside l t new true = l ++ [new] := by
  rw [List.getLast?_eq_getElem?] at ht
  obtain ⟨hlt, rfl⟩ := List.getElem?_eq_some_iff.mp ht
  unfold insertBeside
  rw [if_pos rfl, h.idxOf_getElem, Nat.sub_add_cancel (by omega), List.insertIdx_length_self]

theorem insertBeside_head {l : List Nat} {t new : Nat} (ht : l.head? = some t) :
    insertBeside l t new false = new :: l := by
  obtain ⟨rest, rfl⟩ := List.head?_eq_some_iff.mp ht
  unfold insertBeside
  rw [if_neg Bool.false_ne_true, List.idxOf_cons_self, List.insertIdx_zero]

theorem dupNode_safe {node : QuicklistNode} {Q : QuicklistNode → QuickList → Prop}
    (h : ∀ node', (node.zl.IsRaw → node'.zl.IsRaw) → (Sound pf node → Sound pf node') →
      Q node' ql) : Safely (dupNode node) Q ql := by
  unfold Safely dupNode
  rcases hzl : node.zl with zl | c
  · simp only [wp_bind, wp_orFail, wp_pure]
    exact ⟨fun data _ => h _ (fun _ => trivial) fun _ => sound_of_raw trivial,
      fun _ => by decide⟩
  · refine h _ (fun hraw => ?_) fun hsound => ?_
    · rw [hzl] at hraw
      exact hraw.elim
    · obtain ⟨zl, hzl'⟩ := hsound
      unfold Holds at hzl'
      rw [hzl] at hzl'
      exact ⟨zl, hzl'⟩

/-- A list that is filled with the nodes of another one. -/
structure Copying (pf : Platform) (orig : QuickList) (left : Nat) (copy : QuickList) : Prop
    extends Ready pf copy where
  fresh : ∀ p ∈ copy.nodes, p < copy.fresh
  len : copy.len = copy.nodes.length
  total : copy.nodes.length + left = orig.nodes.length
  compress : copy.compress = orig.compress
  head : ∀ p, copy.head = some p → copy.Raw p
  all : orig.compress = 0 ∨ orig.nodes.length < orig.compress * 2 →
    ∀ p ∈ copy.nodes, copy.Raw p

/-- The copy with one more node behind its tail; `len` counts it later. -/
theorem Copying.linked {left : Nat} {node : QuicklistNode} (h : Copying pf orig (left + 1) copy)
    (hsound : Sound pf node) :
    Ready pf (linkNode copy (copy.nodes ++ [copy.fresh]) node) ∧
      ∀ p ∈ copy.nodes, copy.Raw p →
        (linkNode copy (copy.nodes ++ [copy.fresh]) node).Raw p := by
  have hold : ∀ p ∈ copy.nodes, p ≠ copy.fresh := fun p hp => Nat.ne_of_lt (h.fresh p hp)
  refine ⟨⟨?_, fun p hp => ?_⟩, fun p hp hraw => ?_⟩
  · show (copy.nodes ++ [copy.fresh]).Nodup
    rw [(List.perm_append_singleton _ _).nodup_iff, List.nodup_cons]
    exact ⟨fun hmem => hold _ hmem rfl, h.nodup⟩
  · rcases List.mem_append.mp hp with hp | hp
    · rw [linkNode_other (hold p hp)]
      exact h.sound p hp
    · rw [List.mem_singleton.mp hp, linkNode_node]
      exact hsound
  · unfold QuickList.Raw
    rwa [linkNode_other (hold p hp)]

/-- The node before the new one is closed or swept as usual: the head stays open, and in a
short list everything, and the new tail does if it was. -/
theorem compress_copying {t : Nat} {left : Nat} {node : QuicklistNode}
    {Q : Unit → QuickList → Prop} (h : Copying pf orig (left + 1) copy)
    (hne : copy.nodes ≠ []) (hsound : Sound pf node)
    (hraw : orig.compress = 0 ∨ orig.nodes.length < orig.compress * 2 → node.zl.IsRaw)
    (hQ : ∀ ql', Recoded pf (linkNode copy (copy.nodes ++ [copy.fresh]) node) ql' →
      (∀ p, copy.head = some p → ql'.Raw p) →
      (orig.compress = 0 ∨ orig.nodes.length < orig.compress * 2 → ∀ p ∈ ql'.nodes, ql'.Raw p) →
      (node.zl.IsRaw → ql'.Raw copy.fresh) → Q () ql') :
    Safely (quicklistCompress pf t) Q (linkNode copy (copy.nodes ++ [copy.fresh]) node) := by
  obtain ⟨hready, hkeep⟩ := h.linked hsound
  have hhead : (linkNode copy (copy.nodes ++ [copy.fresh]) node).head = copy.head := by
    show (copy.nodes ++ [copy.fresh]).head? = copy.nodes.head?
    rw [List.head?_append_of_ne_nil _ hne]
  have htail : (linkNode copy (copy.nodes ++ [copy.fresh]) node).tail = some copy.fresh :=
    List.getLast?_concat
  have hlen : (copy.nodes ++ [copy.fresh]).length = copy.nodes.length + 1 := by
    rw [List.length_append, List.length_singleton]
  have htotal := h.total
  generalize hlist : linkNode copy (copy.nodes ++ [copy.fresh]) node = list at *
  have hnodes : list.nodes = copy.nodes ++ [copy.fresh] := by rw [← hlist]; rfl
  have hlistlen : list.len = copy.nodes.length := by rw [← hlist]; exact h.len
  have hlistcomp : list.compress = orig.compress := by rw [← hlist]; exact h.compress
  have hnew : node.zl.IsRaw → list.Raw copy.fresh := by
    intro hr
    unfold QuickList.Raw
    rw [← hlist, linkNode_node]
    exact hr
  have hnodraw : ∀ p, copy.head = some p → list.Raw p := fun p hp =>
    hkeep p (List.mem_of_head? hp) (h.head p hp)
  have hallraw : orig.compress = 0 ∨ orig.nodes.length < orig.compress * 2 →
      ∀ p ∈ list.nodes, list.Raw p := by
    intro hs p hp
    rw [hnodes] at hp
    rcases List.mem_append.mp hp with hp | hp
    · exact hkeep p hp (h.all hs p hp)
    · rw [List.mem_singleton.mp hp]
      exact hnew (hraw hs)
  unfold Safely quicklistCompress
  rw [wp_bind, wp_nodeAt]
  split
  case isFalse => decide
  case isTrue ht =>
    rw [wp_ite]
    split
    · unfold recompress
      simp only [wp_bind, wp_get, wp_mark]
      split
      case isTrue => trivial
      case isFalse hmark =>
        rw [decide_eq_true_eq, not_and'] at hmark
        refine wp_compressNode (fun _ => by decide) (.inl (by decide)) fun ql' _ hclosed => ?_
        by_cases hcomp : Compressible pf (list.node t)
        · have hinner := hmark hcomp
          unfold QuickList.Exposed at hinner
          push Not at hinner
          obtain ⟨hc, hmany, hthead, httail⟩ := hinner
          have hother : ∀ p, p ≠ t → list.Raw p → ql'.Raw p := by
            intro p hpt hr
            unfold QuickList.Raw
            rwa [hclosed.other p hpt]
          refine hQ ql' hclosed.toRecoded (fun p hp => hother p ?_ (hnodraw p hp))
            (fun hs => ?_) fun hr => hother _ ?_ (hnew hr)
          · rintro rfl
            exact hthead (hhead.trans hp)
          · rw [hlistcomp] at hc hmany
            rw [hnodes, hlen] at hmany
            omega
          · rintro heq
            exact httail (heq ▸ htail)
        · rw [hclosed.same hcomp]
          exact hQ list (.refl list) hnodraw hallraw hnew
    · refine wp_quicklistCompressTo hready (fun q hq => Option.some.inj hq ▸ ht)
        (by rw [hnodes, hlen]; omega) (.inl (by decide)) fun ql' hrec hswept => ?_
      rcases hswept with ⟨_, rfl⟩ | ⟨hc, hmany, hends, _⟩
      · exact hQ _ hrec hnodraw hallraw hnew
      · rw [hlistcomp] at hc hmany
        refine hQ ql' hrec (fun p hp => hends p (.inl ?_)) (fun hs => ?_)
          fun _ => hends _ (.inr ?_)
        · rw [hrec.head, hhead, hp]
        · omega
        · rw [hrec.tail, htail]

theorem incrLen_copying {left : Nat} (hready : Ready pf ql)
    (hfresh : ∀ p ∈ ql.nodes, p < ql.fresh) (hlen : ql.len + 1 = ql.nodes.length)
    (hsmall : orig.nodes.length < 2 ^ 32) (htotal : ql.nodes.length + left = orig.nodes.length)
    (hcompress : ql.compress = orig.compress) (hhead : ∀ p, ql.head = some p → ql.Raw p)
    (hall : orig.compress = 0 ∨ orig.nodes.length < orig.compress * 2 →
      ∀ p ∈ ql.nodes, ql.Raw p) :
    Safely incrLen (fun _ ql' => Copying pf orig left ql' ∧ ql'.nodes = ql.nodes ∧
      ql'.node = ql.node) ql := by
  unfold Safely incrLen
  simp only [wp_bind, wp_get, wp_mark, wp_modify]
  split
  · trivial
  · have hlen' : toUInt ((ql.len + 1 : Nat) : Int) = ql.len + 1 := toUInt_eq (by omega)
    exact ⟨⟨⟨hready.nodup, hready.sound⟩, hfresh, hlen'.trans hlen, htotal, hcompress, hhead,
      hall⟩, trivial, trivial⟩

theorem insertNode_copying {left : Nat} {node : QuicklistNode} (hsmall : orig.nodes.length < 2 ^ 32)
    (h : Copying pf orig (left + 1) copy) (hsound : Sound pf node)
    (hfirst : copy.nodes = [] → node.zl.IsRaw)
    (hraw : orig.compress = 0 ∨ orig.nodes.length < orig.compress * 2 → node.zl.IsRaw) :
    Safely (quicklistInsertNode pf copy.tail node true)
      (fun _ ql' => Copying pf orig left ql' ∧
        (node.zl.IsRaw → ∀ p, ql'.tail = some p → ql'.Raw p)) copy := by
  obtain ⟨hready, _⟩ := h.linked hsound
  have hlink : ∀ p ∈ (linkNode copy (copy.nodes ++ [copy.fresh]) node).nodes,
      p < (linkNode copy (copy.nodes ++ [copy.fresh]) node).fresh := by
    intro p hp
    rcases List.mem_append.mp hp with hp | hp
    · exact Nat.lt_succ_of_lt (h.fresh p hp)
    · rw [List.mem_singleton.mp hp]
      exact Nat.lt_succ_self _
  have hlen := h.len
  have htotal := h.total
  have hmany : (copy.nodes ++ [copy.fresh]).length = copy.nodes.length + 1 := by
    rw [List.length_append, List.length_singleton]
  unfold Safely quicklistInsertNode
  rw [wp_bind, wp_get]
  rcases htail : copy.tail with _ | t
  · have hempty : copy.nodes = [] := List.getLast?_eq_none_iff.mp htail
    have hnew : (linkNode copy [copy.fresh] node).Raw copy.fresh := by
      unfold QuickList.Raw
      rw [linkNode_node]
      exact hfirst hempty
    rw [hempty] at hready hlink hlen htotal
    dsimp only
    rw [wp_ite, wp_fail]
    split
    case isFalse => decide
    case isTrue =>
      simp only [wp_bind, wp_set, wp_pure]
      refine Safely.mono (incrLen_copying hready hlink ?_ hsmall ?_ h.compress ?_ ?_)
        fun _ ql' hql' => ⟨hql'.1, fun hr p hp => ?_⟩
      · show copy.len + 1 = 1
        rw [hlen]
        rfl
      · show 1 + left = _
        rw [List.length_nil] at htotal
        omega
      · exact fun p hp => Option.some.inj hp ▸ hnew
      · exact fun _ p hp => List.mem_singleton.mp hp ▸ hnew
      · obtain ⟨_, hn, hf⟩ := hql'
        unfold QuickList.tail at hp
        rw [hn] at hp
        unfold QuickList.Raw
        rw [hf]
        exact Option.some.inj hp ▸ hnew
  · have hne : copy.nodes ≠ [] := by
      intro hnil
      unfold QuickList.tail at htail
      rw [hnil] at htail
      cases htail
    dsimp only
    rw [wp_bind, wp_nodeAt]
    split
    case isFalse => decide
    case isTrue =>
      rw [wp_ite, wp_fail]
      split
      case isTrue => decide
      case isFalse =>
        rw [insertBeside_tail h.nodup htail]
        simp only [wp_bind, wp_set, wp_pure]
        refine compress_copying h hne hsound hraw fun ql₁ hrec hhead hall hnew => ?_
        have hnodes₁ : ql₁.nodes = copy.nodes ++ [copy.fresh] := hrec.nodes
        have hlen₁ : ql₁.len = copy.len := hrec.len
        refine Safely.mono (incrLen_copying (hready.recoded hrec) ?_ ?_ hsmall ?_
          (hrec.compress.trans h.compress) ?_ hall) fun _ ql' hql' => ⟨hql'.1, fun hr p hp => ?_⟩
        · intro p hp
          rw [hrec.fresh]
          exact hlink p (hnodes₁ ▸ hp)
        · rw [hnodes₁, hmany, hlen₁, hlen]
        · rw [hnodes₁, hmany]
          omega
        · intro p hp
          refine hhead p ?_
          unfold QuickList.head at hp ⊢
          rwa [hnodes₁, List.head?_append_of_ne_nil _ hne] at hp
        · obtain ⟨_, hn, hf⟩ := hql'
          unfold QuickList.tail at hp
          rw [hn, hnodes₁, List.getLast?_concat] at hp
          unfold QuickList.Raw
          rw [hf]
          exact Option.some.inj hp ▸ hnew hr

theorem Copying.addCount {left n : Nat} (h : Copying pf orig left copy) :
    Copying pf orig left { copy with count := n } :=
  ⟨⟨h.nodup, h.sound⟩, h.fresh, h.len, h.total, h.compress, h.head, h.all⟩

/-- The loop over the nodes that are left: the last of them is raw, and so is the tail in
the end. -/
theorem dupLoop_spec (horig : Tidy pf orig) : ∀ (rest : List Nat) (copy : QuickList),
    (∀ p ∈ rest, p ∈ orig.nodes) → Copying pf orig rest.length copy →
    (copy.nodes = [] → ∀ p, rest.head? = some p → orig.Raw p) →
    (∀ p, rest.getLast? = some p → orig.Raw p) →
    (rest = [] → ∀ p, copy.tail = some p → copy.Raw p) →
    Safely (dupLoop pf orig rest) (fun _ ql' => Copying pf orig 0 ql' ∧
      ∀ p, ql'.tail = some p → ql'.Raw p) copy := by
  intro rest
  induction rest with
  | nil =>
      intro copy _ h _ _ htail
      exact ⟨h, htail rfl⟩
  | cons p rest ih =>
      intro copy hmem h hfirst hlast _
      have hp := hmem p List.mem_cons_self
      unfold Safely dupLoop
      rw [wp_bind]
      refine dupNode_safe fun node hraw (hsound : Sound pf _ → Sound pf _) => ?_
      unfold addCount
      simp only [wp_bind, wp_modify, wp_get]
      refine Safely.mono (insertNode_copying horig.small h.addCount (hsound (horig.sound p hp))
        (fun hnil => hraw (hfirst hnil p rfl)) fun hs => hraw (horig.short hs p hp))
        fun _ ql₁ hql₁ => ?_
      obtain ⟨h₁, htail₁⟩ := hql₁
      refine ih ql₁ (fun q hq => hmem q (List.mem_cons_of_mem _ hq)) h₁ (fun hnil => ?_)
        (fun q hq => hlast q ?_) fun hnil q hq => htail₁ (hraw (hlast p ?_)) q hq
      · -- the copy has a node by now
        have htotal := h.total
        have htotal₁ := h₁.total
        rw [hnil] at htotal₁
        rw [List.length_cons] at htotal
        rw [List.length_nil] at htotal₁
        omega
      · rw [List.getLast?_cons, hq]
        rfl
      · rw [hnil]
        rfl

theorem compress_quicklistNew {fill : Int} {c : Nat} (h : c < 2 ^ 16) :
    (quicklistNew fill c).compress = c := by
  unfold quicklistNew quicklistSetCompressDepth COMPRESS_MAX
  dsimp only
  rw [if_neg (by omega), if_neg (by omega)]
  omega

theorem quicklistDup_tidy (h : Tidy pf ql) :
    Safely (quicklistDup pf) (fun copy ql' => Tidy pf copy ∧ ql' = ql) ql := by
  unfold Safely quicklistDup
  simp only [wp_bind, wp_get, wp_runOn, wp_pure]
  have hcompress := @compress_quicklistNew ql.fill _ h.depth
  have hempty : Copying pf ql ql.nodes.length (quicklistNew ql.fill ql.compress) :=
    { nodup := List.nodup_nil
      sound := fun p hp => by cases hp
      fresh := fun p hp => by cases hp
      len := rfl
      total := Nat.zero_add _
      compress := hcompress
      head := fun p hp => by cases hp
      all := fun _ p hp => by cases hp }
  refine Safely.mono (dupLoop_spec h ql.nodes _ (fun p hp => hp) hempty
    (fun _ p hp => h.ends p (.inl hp)) (fun p hp => h.ends p (.inr hp))
    fun _ p hp => by cases hp) fun _ copy hcopy => ?_
  obtain ⟨hcopy, htail⟩ := hcopy
  have htotal : copy.nodes.length = ql.nodes.length := hcopy.total
  refine ⟨⟨⟨hcopy.toReady, hcopy.fresh, hcopy.compress ▸ h.depth, fun hs => ?_,
    fun p hp => ?_⟩, hcopy.len, ?_⟩, trivial⟩
  · rw [htotal, hcopy.compress] at hs
    exact hcopy.all hs
  · exact hp.elim (hcopy.head p) (htail p)
  · rw [htotal]
    exact h.small

/-! ## Runs -/

/-- A session whose list is tidy, with the iterator and the entry in open nodes. -/
structure TidySession (pf : Platform) (s : Session) : Prop where
  tidy : Tidy pf s.ql
  iter : ∀ iter, s.iter = some iter → IterOpen iter s.ql
  entry : ∀ entry, s.entry = some entry → EntryOpen entry s.ql
  closed : s.iter = none → s.entry = none

/-- Both end nodes of a quicklist are raw. -/
def EndsRaw (ql : QuickList) : Prop :=
  ∀ p, ql.head = some p ∨ ql.tail = some p → ∃ zl, (ql.node p).zl = .raw zl

theorem TidySession.endsRaw {s : Session} (h : TidySession pf s) : EndsRaw s.ql := by
  intro p hp
  have hraw := h.tidy.ends p hp
  unfold QuickList.Raw at hraw
  rcases hzl : (s.ql.node p).zl with zl | c
  · exact ⟨zl, rfl⟩
  · rw [hzl] at hraw
    exact hraw.elim

theorem TidySession.kept {s : Session} (h : TidySession pf s) (hk : Kept pf s.ql ql') :
    TidySession pf { s with ql := ql' } where
  tidy := h.tidy.kept hk
  iter iter hi p zi hp hz := hk.raw p (h.iter iter hi p zi hp hz)
  entry entry he p hp := hk.raw p (h.entry entry he p hp)
  closed := h.closed

theorem changeList_tidy {op : Op} (h : Tidy pf ql) :
    Safely (changeList pf op) (fun _ ql' => Tidy pf ql') ql := by
  unfold Safely
  cases op with
  | push value whr =>
      simp only [changeList, wp_bind, wp_pure]
      exact quicklistPush_tidy h
  | pop whr =>
      simp only [changeList, wp_bind, wp_pure]
      exact quicklistPop_tidy h
  | rotate late => exact quicklistRotate_tidy h
  | insert idx value after => exact insertAtIndex_tidy h
  | replaceAtIndex idx data =>
      simp only [changeList, wp_bind, wp_pure]
      exact quicklistReplaceAtIndex_tidy h
  | delRange start count =>
      simp only [changeList, wp_bind, wp_pure]
      exact quicklistDelRange_tidy h
  | appendZiplist zl => exact quicklistAppendZiplist_tidy h
  | appendValuesFromZiplist zl => exact quicklistAppendValuesFromZiplist_tidy h
  | index | getIterator | getIteratorAtIdx | next | delEntry | releaseIterator | dup => exact h

theorem tidySession_closed {s : Session} (h : Tidy pf s.ql) (hiter : s.iter = none)
    (hentry : s.entry = none) : TidySession pf s where
  tidy := h
  iter iter hi := by
    rw [hiter] at hi
    cases hi
  entry entry he := by
    rw [hentry] at he
    cases he
  closed _ := hentry

/-- A call keeps a session tidy. -/
theorem step_tidy {op : Op} {s : Session} (h : TidySession pf s) :
    wp True (fun e => e ≠ Fault.lzf) (step pf op) (fun _ s' => TidySession pf s') s := by
  unfold step onList
  rw [wp_bind, wp_get]
  rcases hiter : s.iter with _ | iter
  · -- without an iterator
    have hentry := h.closed hiter
    have hchange : wp True (fun e => e ≠ Fault.lzf)
        (zoom Session.ql (fun s ql => { s with ql := ql }) (changeList pf op))
        (fun _ s' => TidySession pf s') s := by
      rw [wp_zoom]
      exact Safely.mono (changeList_tidy h.tidy) fun _ ql' h' =>
        tidySession_closed h' hiter hentry
    cases op with
    | push | pop | rotate | insert | replaceAtIndex | delRange | appendZiplist
    | appendValuesFromZiplist | next | delEntry | releaseIterator => exact hchange
    | index idx =>
        simp only [wp_bind, wp_zoom, wp_pure]
        exact quicklistIndex_kept h.tidy.toReady fun _ ql' hk _ => h.kept hk
    | dup useCopy =>
        simp only [wp_bind, wp_zoom, wp_ite, wp_pure, wp_set]
        refine Safely.mono (quicklistDup_tidy h.tidy) fun copy ql' hcopy => ?_
        obtain ⟨hcopy, rfl⟩ := hcopy
        split
        · exact tidySession_closed hcopy rfl hentry
        · exact h
    | getIterator direction =>
        rw [wp_set]
        refine ⟨h.tidy, fun iter hi p zi _ hz => ?_, (fun entry he => by cases he), fun _ => rfl⟩
        obtain rfl := Option.some.inj hi
        cases direction
        · cases hz
        · cases hz
    | getIteratorAtIdx direction idx =>
        simp only [wp_bind, wp_zoom, wp_modify]
        exact Safely.mono (quicklistGetIteratorAtIdx_tidy h.tidy) fun r ql' hr =>
          ⟨hr.1, hr.2, (fun entry he => by cases he), fun _ => rfl⟩
  · -- with an iterator
    cases op with
    | push | pop | rotate | insert | replaceAtIndex | delRange | appendZiplist
    | appendValuesFromZiplist | getIterator | getIteratorAtIdx => exact h
    | index idx =>
        simp only [wp_bind, wp_zoom, wp_pure]
        exact quicklistIndex_kept h.tidy.toReady fun _ ql' hk _ => h.kept hk
    | dup useCopy =>
        simp only [wp_bind, wp_zoom, wp_pure]
        refine Safely.mono (quicklistDup_tidy h.tidy) fun copy ql' hcopy => ?_
        obtain ⟨_, rfl⟩ := hcopy
        exact h
    | next =>
        simp only [wp_bind, wp_zoom, wp_modify]
        refine Safely.mono (quicklistNext_tidy h.tidy (h.iter iter hiter))
          fun r ql' hr => ?_
        obtain ⟨htidy, hopen, hentry⟩ := hr
        refine ⟨htidy, fun iter' hi => ?_, fun entry he => ?_, (fun hi => by cases hi)⟩
        · exact Option.some.inj hi ▸ hopen
        · dsimp only at he
          split at he
          · exact Option.some.inj he ▸ hentry
          · cases he
    | delEntry =>
        rcases hentry : s.entry with _ | entry
        · exact h
        · simp only [wp_bind, wp_zoom, wp_modify]
          refine Safely.mono (quicklistDelEntry_tidy h.tidy (h.entry entry hentry))
            fun iter' ql' hr => ?_
          refine ⟨hr.1, fun iter'' hi => ?_, (fun entry he => by cases he), (fun hi => by cases hi)⟩
          exact Option.some.inj hi ▸ hr.2
    | releaseIterator =>
        simp only [wp_bind, wp_zoom, wp_modify]
        exact Safely.mono (quicklistReleaseIterator_tidy h.tidy) fun _ ql' h' =>
          tidySession_closed h' rfl rfl

theorem run_tidy : ∀ (ops : List Op) {s : Session}, TidySession pf s →
    wp True (fun e => e ≠ Fault.lzf) (run pf ops) (fun _ s' => TidySession pf s') s := by
  intro ops
  induction ops with
  | nil =>
      intro s h
      exact h
  | cons op ops ih =>
      intro s h
      unfold run
      rw [wp_bind]
      exact wp_mono (step_tidy h) fun _ s' h' => ih h'

theorem newSession_tidy (fill compress : Int) : TidySession pf (newSession fill compress) :=
  tidySession_closed (quicklistNew_tidy fill compress) rfl rfl

/-- What a run that begins with a new quicklist comes to. -/
def outcome (pf : Platform) (fill compress : Int) (ops : List Op) :
    Except Fault (Unit × Session) := (run pf ops (newSession fill compress)).1

/-- Whether a run has a mark: a node is closed by its flag though it has to stay open, or
the counter of the nodes wraps around. -/
def marked (pf : Platform) (fill compress : Int) (ops : List Op) : Bool :=
  (run pf ops (newSession fill compress)).2

theorem wp_run_append {X : Prop} {E : Fault → Prop} {Q : Unit → Session → Prop} (b : List Op) :
    ∀ (a : List Op) (s : Session), wp X E (run pf (a ++ b)) Q s ↔
      wp X E (run pf a) (fun _ s' => wp X E (run pf b) Q s') s := by
  intro a
  induction a with
  | nil =>
      intro s
      exact Iff.rfl
  | cons op a ih =>
      intro s
      rw [List.cons_append, run, run, wp_bind, wp_bind]
      constructor
      · exact fun h => wp_mono h fun _ s' h' => (ih s').mp h'
      · exact fun h => wp_mono h fun _ s' h' => (ih s').mpr h'

/-- A run without a mark has none at any time. -/
theorem marked_take {fill compress : Int} {ops : List Op}
    (h : marked pf fill compress ops = false) (n : Nat) :
    marked pf fill compress (ops.take n) = false := by
  have hall : wp False (fun _ => True) (run pf ops) (fun _ _ => True)
      (newSession fill compress) := by
    unfold wp
    rw [if_neg (by rw [show (run pf ops (newSession fill compress)).2 = false from h]; decide)]
    split <;> trivial
  rw [← List.take_append_drop n ops, wp_run_append] at hall
  unfold wp at hall
  split at hall
  · exact hall.elim
  · next hmark => exact Bool.eq_false_of_not_eq_true hmark

/-- A ziplist with one string of sixty equal bytes. -/
def sixtyList (b : UInt8) : Bytes :=
  [73, 0, 0, 0, 10, 0, 0, 0, 1, 0, 0, 60] ++ List.replicate 60 b ++ [255]

/-- What the codec makes of it. -/
def sixtyPacked (b : UInt8) : Bytes :=
  [4, 73, 0, 0, 0, 10, 32, 3, 4, 1, 0, 0, 60, b, 224, 49, 0, 1, b, 255]

/-- A platform that compresses these ziplists and refuses all others. -/
def sixtyPlatform : Platform where
  mem _ := 0
  lzfCompress data :=
    if data = sixtyList (data.getD 12 0) then some (sixtyPacked (data.getD 12 0)) else none
  lzfDecompress c _ :=
    if c = sixtyPacked (c.getD 13 0) then some (sixtyList (c.getD 13 0)) else none
  inverse := by
    intro data c h
    split at h
    · next hdata =>
        have hc : sixtyPacked (data.getD 12 0) = c := Option.some.inj h
        have hback : (sixtyPacked (data.getD 12 0)).getD 13 0 = data.getD 12 0 := rfl
        rw [← hc, hback, if_pos rfl]
        exact congrArg some hdata.symm
    · cases h

/-- Three nodes; the middle one, which is compressed, is read, becomes the head, and its
element is replaced. -/
def replaceOpened : List Op :=
  [.push (List.replicate 60 97) .TAIL, .push (List.replicate 60 98) .TAIL,
    .push (List.replicate 60 99) .TAIL, .index 1, .pop .HEAD,
    .replaceAtIndex 0 (List.replicate 60 100)]

/-- The run fails on a compressed node. -/
def failsLzf : Except Fault (Unit × Session) → Bool
  | .error .lzf => true
  | _ => false

/-- The head of the list is compressed. -/
def headLzf : Except Fault (Unit × Session) → Bool
  | .ok (_, s) =>
      match s.ql.head with
      | some p =>
          match (s.ql.node p).zl with
          | .lzf _ => true
          | .raw _ => false
      | none => false
  | .error _ => false

theorem replaceOpened_head : headLzf (outcome sixtyPlatform 1 1 replaceOpened) = true := by
  decide +kernel

theorem replaceOpened_pop :
    failsLzf (outcome sixtyPlatform 1 1 (replaceOpened ++ [.pop .HEAD])) = true := by
  decide +kernel

end Quicklist

end RedisCore
