/-
# `RedisCore.Quicklist.Iterate` — going through a list

`quicklistNext` is called until it finds nothing.  An iterator has so many entries before it: it
is in front of the first of them, with an offset in its node, or on the one behind which they
stand, with an address in the ziplist of an open node, or it is at the end.
-/
import RedisCore.Quicklist.Merging

namespace RedisCore

namespace Quicklist

open CInt Marked Ziplist

variable {pf : Platform} {ql ql' : QuickList} {p q : Nat} {ns as bs : Shape} {es : List Entry}
  {dir : Direction} {iter : QuicklistIter} {pl : Place} {n r : Nat}

variable (pf) in
/-- `while (quicklistNext (iter, &entry))`, as often as the caller likes: the entries. -/
def visit : Nat → QuicklistIter → M (QuicklistIter × List QuicklistEntry)
  | 0, iter => return (iter, [])
  | n + 1, iter => do
      let (iter, entry, found) ← quicklistNext pf iter
      if found then do
        let (iter, entries) ← visit n iter
        return (iter, entry :: entries)
      else return (iter, [])

variable (pf) in
/-- A visit with an iterator from one end. -/
def visitFrom (n : Nat) (dir : Direction) : M (List QuicklistEntry) := do
  let (iter, entries) ← visit pf n (quicklistGetIterator (← get) dir)
  quicklistReleaseIterator pf iter
  return entries

variable (pf) in
/-- A visit with an iterator from an index. -/
def visitAtIdx (n : Nat) (dir : Direction) (idx : Int) : M (List QuicklistEntry) := do
  match ← quicklistGetIteratorAtIdx pf dir idx with
  | none => return []
  | some iter => do
      let (iter, entries) ← visit pf n iter
      quicklistReleaseIterator pf iter
      return entries

/-- The string of an entry. -/
def QuicklistEntry.bytes (entry : QuicklistEntry) : Option Bytes := entry.value.map Value.bytes

/-! ## What is ahead -/

/-- The strings of some nodes, in a direction. -/
def inOrder (dir : Direction) (ns : Shape) : List Bytes :=
  match dir with
  | .AL_START_HEAD => elements ns
  | .AL_START_TAIL => (elements ns).reverse

/-- Of the nodes on both sides those that are ahead. -/
def facing (dir : Direction) (as bs : Shape) : Shape :=
  match dir with
  | .AL_START_HEAD => bs
  | .AL_START_TAIL => as

namespace Place

/-- The strings behind an entry, in a direction. -/
def ahead (dir : Direction) (pl : Place) : List Bytes :=
  match dir with
  | .AL_START_HEAD => contents pl.right ++ elements pl.after
  | .AL_START_TAIL => (elements pl.before ++ contents pl.left).reverse

/-- The next entry of its node. -/
def following (dir : Direction) (pl : Place) : Option Place :=
  match dir with
  | .AL_START_HEAD =>
      match pl.right with
      | [] => none
      | e :: right => some ⟨pl.before, pl.node, pl.left ++ [pl.entry], e, right, pl.after⟩
  | .AL_START_TAIL =>
      match pl.left.getLast? with
      | none => none
      | some e => some ⟨pl.before, pl.node, pl.left.dropLast, e, pl.entry :: pl.right, pl.after⟩

theorem following_spec {pl' : Place} (h : pl.following dir = some pl') :
    pl'.shape = pl.shape ∧ pl'.node = pl.node ∧ pl.ahead dir = pl'.entry.bytes :: pl'.ahead dir := by
  unfold following at h
  cases dir with
  | AL_START_HEAD =>
      dsimp only at h
      rcases hright : pl.right with _ | ⟨e, right⟩
      · rw [hright] at h
        cases h
      · rw [hright] at h
        cases h
        unfold shape entries ahead
        rw [hright]
        exact ⟨by simp, rfl, by simp⟩
  | AL_START_TAIL =>
      dsimp only at h
      rcases List.eq_nil_or_concat' pl.left with hleft | ⟨left, e, hleft⟩
      · rw [hleft] at h
        cases h
      · rw [hleft, List.getLast?_concat, List.dropLast_concat] at h
        cases h
        unfold shape entries ahead
        rw [hleft]
        exact ⟨by simp, rfl, by simp⟩

/-- Behind the last entry of a node come the nodes behind it. -/
theorem ahead_of_last (h : pl.following dir = none) :
    pl.ahead dir = inOrder dir (facing dir pl.before pl.after) := by
  unfold following at h
  unfold ahead inOrder facing
  cases dir with
  | AL_START_HEAD =>
      dsimp only at h ⊢
      rcases hright : pl.right with _ | ⟨e, right⟩
      · rfl
      · rw [hright] at h
        cases h
  | AL_START_TAIL =>
      dsimp only at h ⊢
      rcases List.eq_nil_or_concat' pl.left with hleft | ⟨left, e, hleft⟩
      · rw [hleft, contents_nil, List.append_nil]
      · rw [hleft, List.getLast?_concat] at h
        cases h

end Place

/-- The offset at which a node is entered. -/
def entryOffset : Direction → Int
  | .AL_START_HEAD => 0
  | .AL_START_TAIL => -1

/-- A node that is entered. -/
theorem exists_entered (dir : Direction) (hes : es ≠ []) : ∃ pl : Place,
    pl.shape = as ++ (p, es) :: bs ∧ pl.node = p ∧
      position pl.entries.length (toInt (entryOffset dir)) = some pl.left.length ∧
      pl.entry.bytes :: pl.ahead dir = inOrder dir [(p, es)] ++ inOrder dir (facing dir as bs) := by
  cases dir with
  | AL_START_HEAD =>
      obtain ⟨e, right, rfl⟩ := List.exists_cons_of_ne_nil hes
      refine ⟨⟨as, p, [], e, right, bs⟩, rfl, rfl, ?_, ?_⟩
      · rw [show toInt (entryOffset .AL_START_HEAD) = 0 by decide]
        unfold position
        rw [if_pos (Int.le_refl 0), if_pos (by unfold Place.entries; simp)]
        rfl
      · unfold Place.ahead inOrder facing
        simp
  | AL_START_TAIL =>
      obtain ⟨left, e, rfl⟩ := (List.eq_nil_or_concat' es).resolve_left hes
      refine ⟨⟨as, p, left, e, [], bs⟩, rfl, rfl, ?_, ?_⟩
      · rw [show toInt (entryOffset .AL_START_TAIL) = -1 by decide]
        unfold position Place.entries
        rw [if_neg (by decide), if_pos (by simp), List.length_append, List.length_singleton]
        congr 1
      · unfold Place.ahead inOrder facing
        simp

/-- The strings that an iterator has before it, in a direction. -/
inductive Remaining (dir : Direction) (ns : Shape) (ql : QuickList) (iter : QuicklistIter) :
    List Bytes → Prop
  | front (pl : Place) (hshape : pl.shape = ns) (hdir : iter.direction = dir)
      (hcurrent : iter.current = some pl.node) (hzi : iter.zi = none)
      (hoffset : position pl.entries.length (toInt iter.offset) = some pl.left.length) :
      Remaining dir ns ql iter (pl.entry.bytes :: pl.ahead dir)
  | on (pl : Place) (hshape : pl.shape = ns) (hdir : iter.direction = dir)
      (hcurrent : iter.current = some pl.node) (hzi : iter.zi = some (10 + size pl.left))
      (hraw : ql.Raw pl.node) : Remaining dir ns ql iter (pl.ahead dir)
  | done (hcurrent : iter.current = none) : Remaining dir ns ql iter []

theorem Remaining.current {l : List Bytes} (h : Remaining dir ns ql iter l)
    (hs : Stores pf ql ns) (hp : iter.current = some p) : p ∈ ql.nodes := by
  cases h with
  | front pl hshape _ hcurrent =>
      rw [hcurrent] at hp
      cases hp
      exact hs.mem (hshape ▸ pl.mem_shape)
  | on pl hshape _ hcurrent =>
      rw [hcurrent] at hp
      cases hp
      exact hs.mem (hshape ▸ pl.mem_shape)
  | done hcurrent =>
      rw [hcurrent] at hp
      cases hp

/-! ## A step -/

/-- What `quicklistNext` does to an iterator with these strings before it. -/
def Stepped (dir : Direction) (ns : Shape) (l : List Bytes)
    (r : QuicklistIter × QuicklistEntry × Bool) (ql : QuickList) : Prop :=
  match l with
  | [] => r.2.2 = false ∧ Remaining dir ns ql r.1 []
  | s :: l => r.2.2 = true ∧ r.2.1.bytes = some s ∧ Remaining dir ns ql r.1 l

/-- On an entry, behind the one from which the iterator has moved. -/
theorem gives_landed {Q : QuicklistIter × QuicklistEntry × Bool → QuickList → Prop} {iter : QuicklistIter}
    (h : Stores pf ql pl.shape) (hdir : iter.direction = dir) (hcurrent : iter.current = some pl.node)
    (hzi : iter.zi = some (10 + size pl.left)) (hraw : ql.Raw pl.node)
    (hQ : ∀ r, Stepped dir pl.shape (pl.entry.bytes :: pl.ahead dir) r ql → Q r ql) :
    Gives (do
      let value ← orFail .memory (ziplistGet (← rawAt pl.node) (some (10 + size pl.left)))
      return (iter, ⟨some pl.node, some (10 + size pl.left), value, toInt iter.offset⟩, true)) Q ql := by
  have hmem := pl.mem_shape
  obtain ⟨zl, hzl, -, hrep⟩ := (h.holds _ hmem).of_raw hraw
  unfold Gives
  rw [yields_bind]
  refine gives_rawAt (h.mem hmem) hzl ?_
  unfold Place.entries at hrep
  rw [ziplistGet_spec hrep, yields_bind, yields_orFail, yields_pure]
  exact hQ _ ⟨rfl, rfl, .on pl rfl hdir hcurrent hzi hraw⟩

/-- An iterator in front of an entry. -/
theorem gives_next_front {Q : QuicklistIter × QuicklistEntry × Bool → QuickList → Prop} {fuel : Nat}
    (h : Stores pf ql pl.shape) (hdir : iter.direction = dir) (hcurrent : iter.current = some pl.node)
    (hzi : iter.zi = none)
    (hoffset : position pl.entries.length (toInt iter.offset) = some pl.left.length)
    (hQ : ∀ r ql', Stores pf ql' pl.shape → Frame ql ql' →
      Stepped dir pl.shape (pl.entry.bytes :: pl.ahead dir) r ql' → Q r ql') :
    Gives (quicklistNextLoop pf (fuel + 1) iter) Q ql := by
  have hmem := pl.mem_shape
  unfold Gives quicklistNextLoop advance
  rw [hcurrent, hzi]
  dsimp only
  rw [yields_bind, yields_bind]
  refine gives_decompressForUse h.toNodes hmem fun ql₁ hopen _ => ?_
  have h₁ := h.framed hopen.nodes hopen.frame
  obtain ⟨zl, hzl, hrep⟩ := hopen.raw
  have hraw : ql₁.Raw pl.node := by
    unfold QuickList.Raw
    rw [hzl]
    trivial
  have htake : pl.entries.take pl.left.length = pl.left := List.take_left
  rw [yields_bind]
  refine gives_rawAt (h₁.mem hmem) hzl ?_
  rw [ziplistIndex_spec hrep (toInt_bounds _).1 (toInt_bounds _).2, hoffset, yields_bind,
    yields_orFail, Option.map_some, htake, yields_pure]
  exact gives_landed h₁ hdir rfl rfl hraw fun r hr => hQ r ql₁ h₁ hopen.frame hr

/-- An iterator that is not in an entry's node at the end of the list. -/
theorem gives_next_done {Q : QuicklistIter × QuicklistEntry × Bool → QuickList → Prop} {fuel : Nat}
    (hcurrent : iter.current = none) (hQ : ∀ r, Stepped dir ns [] r ql → Q r ql) :
    Gives (quicklistNextLoop pf (fuel + 1) iter) Q ql := by
  unfold Gives quicklistNextLoop
  rw [hcurrent]
  exact hQ _ ⟨rfl, .done hcurrent⟩

/-- An iterator goes to the node behind its own, or to the end. -/
theorem gives_jump {Q : QuicklistIter → QuickList → Prop} (h : Stores pf ql pl.shape)
    (hdir : iter.direction = dir) (hlast : pl.following dir = none)
    (hQ : ∀ iter', (iter'.current = none ∧ pl.ahead dir = [] ∨
      ∃ pl' : Place, pl'.shape = pl.shape ∧ iter'.direction = dir ∧ iter'.current = some pl'.node ∧
        iter'.zi = none ∧ position pl'.entries.length (toInt iter'.offset) = some pl'.left.length ∧
        pl.ahead dir = pl'.entry.bytes :: pl'.ahead dir) → Q iter' ql) :
    Gives (jump pl.node iter) Q ql := by
  have hmem := h.mem pl.mem_shape
  have hahead := pl.ahead_of_last hlast
  have hfull := h.full
  have hnodes := h.toNodes
  unfold Place.shape at hfull hnodes
  unfold Gives jump
  rw [hdir]
  cases dir with
  | AL_START_HEAD =>
      dsimp only
      rw [yields_bind]
      refine gives_nextOf hmem ?_
      rw [hnodes.next, yields_pure]
      rcases hbs : pl.after with _ | ⟨⟨q, fs⟩, bs⟩
      · rw [hbs] at hahead
        exact hQ _ (.inl ⟨rfl, hahead⟩)
      · rw [hbs] at hfull
        obtain ⟨pl', hshape, rfl, hoffset, hstrings⟩ :=
          @exists_entered q (pl.before ++ [(pl.node, pl.entries)]) bs fs .AL_START_HEAD
            (hfull (q, fs) (List.mem_append_right _ (List.mem_cons_of_mem _ List.mem_cons_self)))
        refine hQ _ (.inr ⟨pl', ?_, rfl, rfl, rfl, hoffset, ?_⟩)
        · rw [hshape]
          unfold Place.shape
          rw [hbs, List.append_assoc, List.singleton_append]
        · rw [hahead, hstrings, hbs]
          unfold inOrder facing
          simp
  | AL_START_TAIL =>
      dsimp only
      rw [yields_bind]
      refine gives_prevOf hmem ?_
      rw [hnodes.prev, yields_pure]
      rcases List.eq_nil_or_concat' pl.before with has | ⟨as, ⟨q, fs⟩, has⟩
      · rw [has] at hahead ⊢
        exact hQ _ (.inl ⟨rfl, hahead⟩)
      · rw [has] at hfull
        obtain ⟨pl', hshape, rfl, hoffset, hstrings⟩ :=
          @exists_entered q as ((pl.node, pl.entries) :: pl.after) fs .AL_START_TAIL
            (hfull (q, fs) (List.mem_append_left _ (List.mem_append_right _ List.mem_cons_self)))
        rw [has, List.getLast?_concat]
        refine hQ _ (.inr ⟨pl', ?_, rfl, rfl, rfl, hoffset, ?_⟩)
        · rw [hshape]
          unfold Place.shape
          rw [has, List.append_assoc, List.singleton_append]
        · rw [hahead, hstrings, has]
          unfold inOrder facing
          simp

/-- On an entry the iterator moves in the ziplist of the node. -/
theorem gives_advance_on {Q : QuicklistIter → QuickList → Prop} (h : Stores pf ql pl.shape)
    (hdir : iter.direction = dir) (hcurrent : iter.current = some pl.node)
    (hzi : iter.zi = some (10 + size pl.left)) (hraw : ql.Raw pl.node)
    (hQ : ∀ iter', iter'.current = some pl.node → iter'.direction = dir →
      iter'.zi = (pl.following dir).map (fun pl' => 10 + size pl'.left) → Q iter' ql) :
    Gives (advance pf pl.node iter) Q ql := by
  have hmem := pl.mem_shape
  obtain ⟨zl, hzl, -, hrep⟩ := (h.holds _ hmem).of_raw hraw
  unfold Gives advance
  rw [hzi]
  dsimp only
  rw [yields_bind]
  refine gives_rawAt (h.mem hmem) hzl ?_
  unfold Place.entries at hrep
  rw [hdir]
  unfold Place.following at hQ
  cases dir with
  | AL_START_HEAD =>
      dsimp only at hQ ⊢
      rw [ziplistNext_spec hrep, yields_bind, yields_orFail, yields_pure]
      refine hQ _ hcurrent rfl ?_
      rcases pl.right with _ | ⟨e, right⟩
      · rw [if_pos rfl]
        rfl
      · rw [if_neg (List.cons_ne_nil _ _)]
        rfl
  | AL_START_TAIL =>
      dsimp only at hQ ⊢
      rw [ziplistPrev_spec hrep, yields_bind, yields_orFail, yields_pure]
      refine hQ _ hcurrent rfl ?_
      rcases List.eq_nil_or_concat' pl.left with hleft | ⟨left, e, hleft⟩
      · rw [hleft, if_pos rfl]
        rfl
      · rw [hleft, if_neg (by simp), List.getLast?_concat]
        rfl

/-- An iterator on an entry. -/
theorem gives_next_on {Q : QuicklistIter × QuicklistEntry × Bool → QuickList → Prop} {fuel : Nat}
    (h : Stores pf ql pl.shape) (hdir : iter.direction = dir) (hcurrent : iter.current = some pl.node)
    (hzi : iter.zi = some (10 + size pl.left)) (hraw : ql.Raw pl.node)
    (hQ : ∀ r ql', Stores pf ql' pl.shape → Frame ql ql' →
      Stepped dir pl.shape (pl.ahead dir) r ql' → Q r ql') :
    Gives (quicklistNextLoop pf (fuel + 2) iter) Q ql := by
  have hmem := pl.mem_shape
  unfold Gives quicklistNextLoop
  rw [hcurrent]
  dsimp only
  rw [yields_bind]
  refine gives_advance_on h hdir hcurrent hzi hraw fun iter₁ hcurrent₁ hdir₁ hzi₁ => ?_
  rcases hnext : pl.following dir with _ | pl'
  · -- the node is left
    rw [hnext, Option.map_none] at hzi₁
    rw [hzi₁]
    dsimp only
    rw [yields_bind]
    refine gives_quicklistCompress h.toNodes (h.mem hmem) ?_ fun ql₁ hrec hnodes _ => ?_
    · rw [h.len, h.nodes, List.length_map]
      exact Nat.le_succ _
    have h₁ := h.framed hnodes hrec.frame
    rw [yields_bind]
    refine gives_jump h₁ hdir₁ hnext fun iter₂ hcases => ?_
    rcases hcases with ⟨hend, hahead⟩ | ⟨pl', hshape, hdir', hcurrent', hzi', hoffset', hahead⟩
    · rw [hahead] at hQ
      exact gives_next_done hend fun r hr => hQ r ql₁ h₁ hrec.frame hr
    · rw [hahead] at hQ
      rw [← hshape] at h₁ hQ
      exact gives_next_front h₁ hdir' hcurrent' hzi' hoffset' fun r ql₂ h₂ hframe hr =>
        hQ r ql₂ h₂ (hrec.frame.trans hframe) hr
  · -- another entry of the node
    obtain ⟨hshape, hnode, hahead⟩ := pl.following_spec hnext
    rw [hnext, Option.map_some] at hzi₁
    rw [hzi₁, ← hnode]
    rw [hahead] at hQ
    rw [← hnode] at hcurrent₁ hraw
    rw [← hshape] at h hQ
    exact gives_landed h hdir₁ hcurrent₁ hzi₁ hraw fun r hr => hQ r ql h (.refl ql) hr

/-- **A step.**  `quicklistNext` gives the first of the strings that an iterator has before it. -/
theorem gives_quicklistNext {Q : QuicklistIter × QuicklistEntry × Bool → QuickList → Prop}
    {l : List Bytes} (h : Stores pf ql ns) (hiter : Remaining dir ns ql iter l)
    (hQ : ∀ r ql', Stores pf ql' ns → Frame ql ql' → Stepped dir ns l r ql' → Q r ql') :
    Gives (quicklistNext pf iter) Q ql := by
  unfold Gives quicklistNext
  rw [yields_bind, yields_get]
  cases hiter with
  | front pl hshape hdir hcurrent hzi hoffset =>
      subst hshape
      exact gives_next_front h hdir hcurrent hzi hoffset hQ
  | on pl hshape hdir hcurrent hzi hraw =>
      subst hshape
      obtain ⟨fuel, hfuel⟩ : ∃ fuel, ql.nodes.length = fuel + 1 :=
        Nat.exists_eq_add_of_lt (List.length_pos_of_mem (h.mem pl.mem_shape)) |>.imp fun _ hn => by omega
      rw [hfuel]
      exact gives_next_on h hdir hcurrent hzi hraw hQ
  | done hcurrent =>
      exact gives_next_done hcurrent fun r hr => hQ r ql h (.refl ql) hr

/-! ## A run -/

/-- Calls one after the other. -/
theorem gives_visit {Q : QuicklistIter × List QuicklistEntry → QuickList → Prop} {l : List Bytes}
    (h : Stores pf ql ns) (hiter : Remaining dir ns ql iter l)
    (hQ : ∀ iter' entries ql', Stores pf ql' ns → Frame ql ql' →
      Remaining dir ns ql' iter' (l.drop n) →
      entries.map QuicklistEntry.bytes = (l.take n).map some → Q (iter', entries) ql') :
    Gives (visit pf n iter) Q ql := by
  induction n generalizing ql iter l Q with
  | zero => exact hQ iter [] ql h (.refl ql) hiter rfl
  | succ n ih =>
      unfold Gives visit
      rw [yields_bind]
      refine gives_quicklistNext h hiter fun r ql₁ h₁ hframe₁ hr => ?_
      obtain ⟨iter₁, entry, found⟩ := r
      dsimp only
      cases l with
      | nil =>
          obtain ⟨hfound, hrest⟩ := hr
          dsimp only at hfound hrest
          rw [hfound, yields_ite, if_neg Bool.false_ne_true, yields_pure]
          exact hQ iter₁ [] ql₁ h₁ hframe₁ hrest rfl
      | cons s l =>
          obtain ⟨hfound, hbytes, hrest⟩ := hr
          dsimp only at hfound hbytes hrest
          rw [hfound, yields_ite, if_pos rfl, yields_bind]
          refine ih h₁ hrest fun iter₂ entries ql₂ h₂ hframe₂ hrest₂ hentries => ?_
          rw [yields_pure]
          refine hQ iter₂ (entry :: entries) ql₂ h₂ (hframe₁.trans hframe₂) hrest₂ ?_
          rw [List.map_cons, hbytes, hentries, List.take_succ_cons, List.map_cons]

/-- The iterator is given back. -/
theorem gives_quicklistReleaseIterator {Q : Unit → QuickList → Prop} {l : List Bytes}
    (h : Stores pf ql ns) (hiter : Remaining dir ns ql iter l)
    (hQ : ∀ ql', Stores pf ql' ns → Frame ql ql' → Q () ql') :
    Gives (quicklistReleaseIterator pf iter) Q ql := by
  unfold Gives quicklistReleaseIterator
  rcases hp : iter.current with _ | p
  · exact hQ ql h (.refl ql)
  · refine gives_quicklistCompress h.toNodes (hiter.current h hp) ?_ fun ql' hrec hnodes _ =>
      hQ ql' (h.framed hnodes hrec.frame) hrec.frame
    rw [h.len, h.nodes, List.length_map]
    exact Nat.le_succ _

/-- An iterator from an end has everything before it. -/
theorem remaining_quicklistGetIterator (h : Stores pf ql ns) (dir : Direction) :
    Remaining dir ns ql (quicklistGetIterator ql dir) (inOrder dir ns) := by
  have hnodes := h.nodes
  cases dir with
  | AL_START_HEAD =>
      unfold quicklistGetIterator QuickList.head
      rw [hnodes]
      rcases hns : ns with _ | ⟨⟨p, es⟩, bs⟩
      · exact .done rfl
      · obtain ⟨pl, hshape, rfl, hoffset, hstrings⟩ := @exists_entered p [] bs es .AL_START_HEAD
          (h.full (p, es) (hns ▸ List.mem_cons_self))
        have hall : inOrder .AL_START_HEAD ((pl.node, es) :: bs) =
            pl.entry.bytes :: pl.ahead .AL_START_HEAD := by
          rw [hstrings]
          unfold inOrder facing
          simp
        rw [hall]
        exact .front pl hshape rfl rfl rfl hoffset
  | AL_START_TAIL =>
      unfold quicklistGetIterator QuickList.tail
      rw [hnodes]
      rcases List.eq_nil_or_concat' ns with hns | ⟨as, ⟨p, es⟩, hns⟩
      · rw [hns]
        exact .done rfl
      · obtain ⟨pl, hshape, rfl, hoffset, hstrings⟩ := @exists_entered p as [] es .AL_START_TAIL
          (h.full (p, es) (hns ▸ List.mem_append_right _ List.mem_cons_self))
        have hall : inOrder .AL_START_TAIL (as ++ [(pl.node, es)]) =
            pl.entry.bytes :: pl.ahead .AL_START_TAIL := by
          rw [hstrings]
          unfold inOrder facing
          simp
        rw [hns, hall, List.map_append, List.map_singleton, List.getLast?_concat]
        exact .front pl hshape rfl rfl rfl hoffset

/-- What an iterator from an index gives: the rest of the list, in its direction. -/
def restFrom (dir : Direction) (ns : Shape) (k : Nat) : List Bytes :=
  match dir with
  | .AL_START_HEAD => (elements ns).drop k
  | .AL_START_TAIL => ((elements ns).take (k + 1)).reverse

theorem Place.restFrom_index (pl : Place) (dir : Direction) :
    restFrom dir pl.shape pl.index = pl.entry.bytes :: pl.ahead dir := by
  have hfront : (elements pl.before ++ contents pl.left).length = pl.index := by
    rw [List.length_append, length_elements, length_contents]
    rfl
  have hshape : elements pl.shape = (elements pl.before ++ contents pl.left) ++
      (pl.entry.bytes :: (contents pl.right ++ elements pl.after)) := by
    unfold shape entries
    simp
  unfold restFrom ahead
  rw [hshape, ← hfront]
  cases dir with
  | AL_START_HEAD =>
      dsimp only
      rw [List.drop_left]
  | AL_START_TAIL =>
      dsimp only
      rw [List.take_length_add_append, List.take_succ_cons, List.take_zero, List.reverse_append]
      rfl

/-- **Iteration.**  In either direction, from an end or from any index, as many calls of
`quicklistNext` as the caller makes give the strings one after the other, each once, and then
nothing; the list keeps what it holds, whatever nodes are opened and closed on the way. -/
theorem quicklistNext_visits (pf : Platform) (n : Nat) (dir : Direction) (h : Stores pf ql ns) :
    Gives (visitFrom pf n dir) (fun entries ql' => Stores pf ql' ns ∧ Frame ql ql' ∧
      entries.map QuicklistEntry.bytes = ((inOrder dir ns).take n).map some) ql ∧
    ∀ idx, -(2 ^ 63) ≤ idx → Gives (visitAtIdx pf n dir idx) (fun entries ql' =>
      Stores pf ql' ns ∧ Frame ql ql' ∧ entries.map QuicklistEntry.bytes =
        (((position (total ns) idx).elim [] (restFrom dir ns)).take n).map some) ql := by
  constructor
  · unfold Gives visitFrom
    rw [yields_bind, yields_get, yields_bind]
    refine gives_visit h (remaining_quicklistGetIterator h dir) fun iter entries ql₁ h₁ hframe hrest
      hentries => ?_
    rw [yields_bind]
    refine gives_quicklistReleaseIterator h₁ hrest fun ql₂ h₂ hframe₂ => ?_
    exact ⟨h₂, hframe.trans hframe₂, hentries⟩
  · intro idx hlow
    unfold Gives visitAtIdx quicklistGetIteratorAtIdx
    rw [yields_bind, yields_bind]
    rcases hpos : position (total ns) idx with _ | k
    · refine gives_quicklistIndex_none h hlow hpos ?_
      exact ⟨h, .refl ql, by simp⟩
    · refine gives_quicklistIndex h hlow hpos fun pl ql₁ hshape hindex hopen _ => ?_
      have h₁ := h.framed hopen.nodes hopen.frame
      obtain ⟨hoffset, hlow', hhigh'⟩ := pl.position_found (decide (0 ≤ idx))
        (h.short _ (hshape ▸ pl.mem_shape))
      have hrest : restFrom dir ns k = pl.entry.bytes :: pl.ahead dir := by
        rw [← hshape, ← hindex]
        exact pl.restFrom_index dir
      have hiter : Remaining dir ns ql₁
          ⟨some pl.node, none, (pl.found (decide (0 ≤ idx))).offset, dir⟩ (restFrom dir ns k) := by
        rw [hrest]
        refine .front pl hshape rfl rfl rfl ?_
        rw [toInt_eq hlow' hhigh']
        exact hoffset
      dsimp only [Option.elim]
      rw [yields_pure]
      dsimp only
      rw [yields_bind]
      refine gives_visit h₁ hiter fun iter entries ql₂ h₂ hframe hrest hentries => ?_
      rw [yields_bind]
      refine gives_quicklistReleaseIterator h₂ hrest fun ql₃ h₃ hframe₃ => ?_
      exact ⟨h₃, hopen.frame.trans (hframe.trans hframe₃), hentries⟩

/-- Backwards from the tail, into the node in front. -/
theorem quicklistNext_visits_letters :
    Gives (visitFrom plainPlatform 5 .AL_START_TAIL) (fun entries ql' =>
      Stores plainPlatform ql' (shapeOf [letters 4, letters 2]) ∧ Frame sixLetters ql' ∧
      entries.map QuicklistEntry.bytes =
        ((inOrder .AL_START_TAIL (shapeOf [letters 4, letters 2])).take 5).map some) sixLetters :=
  (quicklistNext_visits plainPlatform 5 .AL_START_TAIL (sixLetters_stores _)).1

end Quicklist

end RedisCore
