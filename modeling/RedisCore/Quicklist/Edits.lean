/-
# `RedisCore.Quicklist.Edits` — replacing and deleting entries

`quicklistReplaceAtIndex` deletes an entry of a ziplist and inserts another one at the same
offset; `quicklistDelRange` deletes entries node by node.  Both are followed on the entries, and
what they do to the list of strings is read off there.
-/
import RedisCore.Quicklist.Contents

namespace RedisCore

namespace Quicklist

open CInt Marked Ziplist

variable {pf : Platform} {ql ql' : QuickList} {p : Nat} {ns as bs : Shape} {es es' : List Entry}
  {node : QuicklistNode}

/-! ## A list with one node changed -/

theorem total_middle : total (as ++ (p, es) :: bs) = total as + es.length + total bs := by
  rw [total_append, total_cons, Nat.add_assoc]

theorem elements_middle :
    elements (as ++ (p, es) :: bs) = elements as ++ (contents es ++ elements bs) := by
  rw [elements_append, elements_cons]

/-- A list of which a node may be empty, while it is changed. -/
structure Loose (pf : Platform) (ql : QuickList) (ns : Shape) : Prop extends Nodes pf ql ns where
  counted : Counted ql ns
  count : ql.count = total ns
  len : ql.len = ns.length
  short : ∀ n ∈ ns, n.2.length < 2 ^ 16
  countable : total ns < 2 ^ 64
  linkable : ns.length < 2 ^ 32

theorem Stores.loose (h : Stores pf ql ns) : Loose pf ql ns :=
  ⟨h.toNodes, h.counted, h.count, h.len, h.short, h.countable, h.linkable⟩

theorem Loose.stores (h : Loose pf ql ns) (hfull : ∀ n ∈ ns, n.2 ≠ []) : Stores pf ql ns :=
  ⟨h.toNodes, h.counted, h.count, h.len, hfull, h.short, h.countable, h.linkable⟩

/-- Another node, and the number of entries with it. -/
theorem Loose.edited {count : Nat} (h : Loose pf ql (as ++ (p, es) :: bs)) (hn : NodeHolds pf node es')
    (hcount : node.count = es'.length) (htotal : count = total (as ++ (p, es') :: bs))
    (hshort : es'.length < 2 ^ 16) :
    Loose pf { ql.setNode p node with count := count } (as ++ (p, es') :: bs) := by
  have hset := h.toNodes.setNode hn
  have hlen := h.len
  have hlinkable := h.linkable
  have hshort' : ∀ n ∈ as ++ (p, es') :: bs, n.2.length < 2 ^ 16 := by
    intro n hmem
    rcases mem_middle hmem with rfl | hin
    · exact hshort
    · exact h.short n (mem_around hin)
  rw [List.length_append, List.length_cons] at hlen hlinkable
  have hmany : (as ++ (p, es') :: bs).length < 2 ^ 32 := by
    rw [List.length_append, List.length_cons]
    exact hlinkable
  refine ⟨⟨hset.nodes, hset.nodup, hset.old, hset.holds⟩, h.counted.setNode h.toNodes hcount, htotal, ?_,
    hshort', Nat.lt_trans (total_lt hshort' hmany) (by decide), hmany⟩
  rw [List.length_append, List.length_cons]
  exact hlen

/-- Another node with as many entries. -/
theorem Stores.setNode (h : Stores pf ql (as ++ (p, es) :: bs)) (hn : NodeHolds pf node es')
    (hcount : node.count = es'.length) (hlen : es'.length = es.length) :
    Stores pf (ql.setNode p node) (as ++ (p, es') :: bs) := by
  have htotal : total (as ++ (p, es') :: bs) = total (as ++ (p, es) :: bs) := by
    rw [total_middle, total_middle, hlen]
  have hedited := h.loose.edited hn hcount (h.count.trans htotal.symm) (hlen ▸ h.short _ mem_self)
  refine Loose.stores hedited fun n hmem => ?_
  rcases mem_middle hmem with rfl | hin
  · intro hnil
    dsimp only at hnil
    rw [hnil] at hlen
    exact h.full _ mem_self (List.length_eq_zero_iff.mp hlen.symm)
  · exact h.full n (mem_around hin)

/-- The list in another form. -/
theorem Stores.framed (h : Stores pf ql ns) (hn : Nodes pf ql' ns) (hf : Frame ql ql') :
    Stores pf ql' ns where
  toNodes := hn
  counted := h.counted.frame hf
  count := hf.count.trans h.count
  len := hf.len.trans h.len
  full := h.full
  short := h.short
  countable := h.countable
  linkable := h.linkable

/-! ## Replacing -/

/-- The entries of a node without one of them. -/
def Place.without (pl : Place) : List Entry :=
  pl.left ++ follow (deletedWidth (lastLen 0 pl.left)) pl.right

/-- The entries of a node with another one at its place. -/
def Place.replaced (pl : Place) (data : Bytes) (h : data.length < 2 ^ 32) : List Entry :=
  insertEntry pl.left data h (follow (deletedWidth (lastLen 0 pl.left)) pl.right)

/-- What `quicklistReplaceAtIndex` is for. -/
def Replaces (pf : Platform) (ns : Shape) (index : Int) (data : Bytes) (ql : QuickList) (done : Bool)
    (ql' : QuickList) : Prop :=
  match position (total ns) index with
  | none => done = false ∧ ql' = ql
  | some k => done = true ∧ ∃ ns', Stores pf ql' ns' ∧ elements ns' = (elements ns).set k data ∧
      ns'.map (fun n => (n.1, n.2.length)) = ns.map fun n => (n.1, n.2.length)

/-- The ziplist with the new entry takes less than 2^32 bytes. -/
def ReplaceFits (ns : Shape) (index : Int) (data : Bytes) (h : data.length < 2 ^ 32) : Prop :=
  ∀ pl : Place, pl.shape = ns → position (total ns) index = some pl.index →
    11 + size (pl.replaced data h) < 2 ^ 32

/-- The new entry takes at least what the field of the entry behind it may give back. -/
theorem size_insertEntry (as : List Entry) (s : Bytes) (h : s.length < 2 ^ 32) (bs : List Entry) :
    size (as ++ bs) ≤ size (insertEntry as s h bs) := by
  unfold insertEntry
  rw [size_append, size_append, size_cons]
  rcases bs with _ | ⟨e, bs⟩
  · rw [size_nil]
    omega
  · have hsettle := @size_settle bs (e.withWide (insertedWidth
      (entryOf (decide (254 ≤ lastLen 0 as)) s h).rawLen e)).rawLen
    have hfirst : e.rawLen ≤ (entryOf (decide (254 ≤ lastLen 0 as)) s h).rawLen +
        (e.withWide (insertedWidth (entryOf (decide (254 ≤ lastLen 0 as)) s h).rawLen e)).rawLen := by
      generalize (entryOf (decide (254 ≤ lastLen 0 as)) s h).rawLen = req
      rcases hw : insertedWidth req e with _ | _
      · -- the field gets short before an entry of four bytes at least
        rw [@Entry.rawLen_narrow (e.withWide false) rfl]
        unfold insertedWidth at hw
        rcases hwide : e.wide with _ | _
        · rw [Entry.rawLen_narrow hwide]
          exact Nat.le_add_left _ _
        · rw [Entry.rawLen_wide hwide]
          rw [hwide] at hw
          simp at hw
          show 5 + e.body.length ≤ req + (1 + e.body.length)
          omega
      · rw [@Entry.rawLen_wide (e.withWide true) rfl]
        have hle : e.rawLen ≤ 5 + e.body.length := by
          unfold Entry.rawLen Entry.prevSize
          split <;> omega
        exact Nat.le_trans hle (Nat.le_add_left _ _)
    show size as + size (e :: bs) ≤ size as + (_ + size (_ :: _))
    rw [size_cons, size_cons]
    omega

theorem cut_eq {value : Bytes} (h : value.length < 2 ^ 32) : cut value = value := by
  unfold cut
  rw [toUInt_eq h, List.take_length]

theorem Place.contents_replaced (pl : Place) (data : Bytes) (h : data.length < 2 ^ 32) :
    contents (pl.replaced data h) = (contents pl.entries).set pl.left.length data := by
  unfold Place.replaced Place.entries
  rw [contents_insertEntry, contents_follow, contents_append, contents_cons,
    ← @length_contents pl.left, List.set_append_right _ _ (Nat.le_refl _), Nat.sub_self]
  rfl

theorem Place.length_replaced (pl : Place) (data : Bytes) (h : data.length < 2 ^ 32) :
    (pl.replaced data h).length = pl.entries.length := by
  rw [← length_contents, pl.contents_replaced, List.length_set, length_contents]

theorem Place.elements_replaced (pl : Place) (data : Bytes) (h : data.length < 2 ^ 32) :
    elements (pl.before ++ (pl.node, pl.replaced data h) :: pl.after) =
      (elements pl.shape).set pl.index data := by
  have hlt : pl.left.length < (contents pl.entries).length := by
    rw [length_contents, pl.length_entries]
    omega
  unfold Place.shape Place.index
  rw [elements_middle, elements_middle, pl.contents_replaced, ← length_elements,
    List.set_append_right _ _ (Nat.le_add_right _ _), Nat.add_sub_cancel_left,
    List.set_append_left _ _ hlt]

/-- `quicklistReplaceAtIndex` replaces the element that the index means. -/
theorem quicklistReplaceAtIndex_spec (pf : Platform) {index : Int} {data : Bytes} (h : Stores pf ql ns)
    (hlow : -(2 ^ 63) ≤ index) (hdata : data.length < 2 ^ 32)
    (hfits : ReplaceFits ns index data hdata) :
    Gives (quicklistReplaceAtIndex pf index data) (Replaces pf ns index data ql) ql := by
  unfold Gives quicklistReplaceAtIndex
  rw [yields_bind]
  rcases hpos : position (total ns) index with _ | k
  · refine gives_quicklistIndex_none h hlow hpos ?_
    unfold Replaces
    rw [hpos]
    exact ⟨rfl, rfl⟩
  · refine gives_quicklistIndex h hlow hpos fun pl ql₁ hshape hindex hopen _ => ?_
    have hreplaced := hfits pl hshape (hindex ▸ hpos)
    have hless : size pl.without ≤ size (pl.replaced data hdata) := size_insertEntry _ _ _ _
    have hmem : (pl.node, pl.entries) ∈ ns := hshape ▸ pl.mem_shape
    have hp := hopen.nodes.mem hmem
    obtain ⟨zl, hzl, hrep⟩ := hopen.raw
    have h₁ := h.framed hopen.nodes hopen.frame
    -- the entry is deleted and another one inserted at its offset
    obtain ⟨zl₁, hdel, hrep₁⟩ := @ziplistDeleteAt_spec pl.left pl.right pf.mem zl [pl.entry] 1 hrep
      (List.cons_ne_nil _ _) rfl (by unfold Place.without at hless; omega)
    obtain ⟨zl₂, hins, hrep₂⟩ := ziplistInsert_spec pf.mem hdata hrep₁ hreplaced
    dsimp only [Place.found]
    unfold deref
    rw [yields_bind, yields_orFail, yields_bind, yields_orFail, yields_bind]
    refine gives_rawAt hp hzl ?_
    rw [show ziplistDelete pf.mem zl (10 + size pl.left) = some zl₁ from hdel, yields_bind,
      yields_orFail, yields_bind]
    refine gives_setZl hp ?_
    rw [yields_bind]
    refine gives_rawAt hp (by rw [setNode_same]) ?_
    rw [cut_eq hdata, hins, yields_bind, yields_orFail, yields_bind]
    refine gives_setZl hp ?_
    rw [setNode_setNode, setNode_same, yields_bind]
    refine gives_updateSz hp (by rw [setNode_same]) hrep₂ ?_
    rw [setNode_setNode, setNode_same, yields_bind]
    rw [← hshape] at h₁
    have hcount : (ql₁.node pl.node).count = (pl.replaced data hdata).length :=
      (h₁.counted _ pl.mem_shape).trans (pl.length_replaced data hdata).symm
    have h₂ := h₁.setNode (@nodeHolds_raw pf _ zl₂ _ (ql₁.node pl.node).recompress hrep₂) hcount
      (pl.length_replaced data hdata)
    refine gives_quicklistCompress h₂.toNodes hp ?_ fun ql₂ hrec h₃ _ => ?_
    · rw [h₂.len, h₂.nodes, List.length_map]
      omega
    · rw [yields_pure]
      unfold Replaces
      rw [hpos]
      refine ⟨rfl, pl.before ++ (pl.node, pl.replaced data hdata) :: pl.after,
        h₂.framed h₃ hrec.frame, ?_, ?_⟩
      · rw [← hshape, ← hindex]
        exact pl.elements_replaced data hdata
      · rw [← hshape]
        unfold Place.shape
        rw [List.map_append, List.map_append, List.map_cons, List.map_cons, pl.length_replaced]

/-- A string of a byte. -/
def tinyString : Bytes := [0]

/-- An entry of a list of one entry. -/
theorem Place.of_single {pl : Place} {e : Entry} (h : pl.shape = [(p, [e])]) :
    pl.left = [] ∧ pl.right = [] := by
  unfold Place.shape at h
  have hlen := congrArg List.length h
  rw [List.length_append, List.length_cons, List.length_singleton] at hlen
  rw [List.length_eq_zero_iff.mp (by omega : pl.before.length = 0),
    List.length_eq_zero_iff.mp (by omega : pl.after.length = 0)] at h
  have hentries : pl.entries.length = 1 := by
    rw [(Prod.mk.inj (List.cons.inj h).1).2]
    rfl
  rw [pl.length_entries] at hentries
  exact ⟨List.length_eq_zero_iff.mp (by omega), List.length_eq_zero_iff.mp (by omega)⟩

theorem tiny_stores (pf : Platform) :
    Stores pf (single [strEntry false tinyString (by decide)])
      [(0, [strEntry false tinyString (by decide)])] :=
  single_stores (List.cons_ne_nil _ _) (by decide) ⟨fun _ => by decide, trivial⟩ (by decide)

/-- The only entry of a list. -/
theorem quicklistReplaceAtIndex_spec_only :
    Gives (quicklistReplaceAtIndex plainPlatform (-1) [1])
      (Replaces plainPlatform [(0, [strEntry false tinyString (by decide)])] (-1) [1]
        (single [strEntry false tinyString (by decide)]))
      (single [strEntry false tinyString (by decide)]) := by
  refine quicklistReplaceAtIndex_spec plainPlatform (tiny_stores _) (by decide) (by decide)
    fun pl hshape _ => ?_
  obtain ⟨hleft, hright⟩ := Place.of_single hshape
  unfold Place.replaced
  rw [hleft, hright]
  decide

/-- A string that is as long as an `int` can tell. -/
def hugeString : Bytes := List.replicate 2147483647 0

theorem length_hugeString : hugeString.length = 2147483647 := List.length_replicate

theorem hugeString_lt : hugeString.length < 2 ^ 32 := by
  rw [length_hugeString]
  decide

/-- Two entries, the second with a wide prevlen field. -/
def hugeAndTiny : List Entry :=
  [strEntry false hugeString hugeString_lt, strEntry true tinyString (by decide)]

theorem hugeAndTiny_stores (pf : Platform) : Stores pf (single hugeAndTiny) [(0, hugeAndTiny)] := by
  have hsecond : (strEntry true tinyString (by decide)).rawLen = 7 := rfl
  have hlen : (zipEncodeLength 0 hugeString.length).length = 5 := by
    rw [length_hugeString]
    rfl
  refine single_stores (List.cons_ne_nil _ _) (by decide) ⟨fun _ => by decide, fun h => ?_, trivial⟩ ?_
  · cases h
  · unfold hugeAndTiny
    rw [size_cons, size_cons, size_nil, rawLen_strEntry, hlen, length_hugeString, hsecond]
    decide

theorem hugeAndTiny_not_replaced : ¬ ∃ done ql', Replaces plainPlatform [(0, hugeAndTiny)] 1
    hugeString (single hugeAndTiny) done ql' := by
  rintro ⟨done, ql', hresult⟩
  unfold Replaces at hresult
  rw [show position (total [(0, hugeAndTiny)]) 1 = some 1 from rfl] at hresult
  obtain ⟨-, ns', h', helements, hlens⟩ := hresult
  have hone : ns'.length = 1 := by
    have hlen := congrArg List.length hlens
    rwa [List.length_map, List.length_map] at hlen
  obtain ⟨⟨p, es⟩, rfl⟩ := List.length_eq_one_iff.mp hone
  have hfirst : elements [(0, hugeAndTiny)] = [hugeString, tinyString] := by
    rw [elements_cons, elements_nil, List.append_nil]
    show contents (strEntry false hugeString _ :: [strEntry true tinyString _]) = _
    rw [contents_cons, contents_cons, bytes_strEntry, bytes_strEntry]
    rfl
  rw [hfirst, elements_cons, elements_nil, List.append_nil] at helements
  obtain ⟨zl, -, -, hrep⟩ := h'.holds _ List.mem_cons_self
  refine not_represents_pair ?_ ?_ ?_ es helements hrep
  all_goals
    rw [length_hugeString]
    decide

/-- A second long string, and the ziplist has no room for it. -/
theorem quicklistReplaceAtIndex_overflow :
    Stores plainPlatform (single hugeAndTiny) [(0, hugeAndTiny)] ∧ hugeString.length < 2 ^ 31 ∧
      ¬ Gives (quicklistReplaceAtIndex plainPlatform 1 hugeString)
        (Replaces plainPlatform [(0, hugeAndTiny)] 1 hugeString (single hugeAndTiny))
        (single hugeAndTiny) := by
  refine ⟨hugeAndTiny_stores plainPlatform, ?_, mt Gives.exists hugeAndTiny_not_replaced⟩
  rw [length_hugeString]
  decide

/-! ## Deleting a range -/

theorem setNode_self : ql.setNode p (ql.node p) = ql := by
  have hnode : (fun q => if q = p then ql.node p else ql.node q) = ql.node := by
    funext q
    split
    · next hq => rw [hq]
    · rfl
  unfold QuickList.setNode
  rw [hnode]

/-- The node behind another one. -/
theorem Nodes.next (h : Nodes pf ql (as ++ (p, es) :: bs)) : ql.next p = (bs.map Prod.fst).head? := by
  have hnodes := h.nodes
  rw [List.map_append, List.map_cons] at hnodes
  rw [@next_getElem? ql p h.nodup (as.map Prod.fst).length]
  · rw [hnodes, List.getElem?_append_right (Nat.le_succ _), Nat.succ_sub (Nat.le_refl _),
      Nat.sub_self, List.getElem?_cons_succ, List.head?_eq_getElem?]
  · rw [hnodes, List.getElem?_append_right (Nat.le_refl _), Nat.sub_self]
    rfl

/-- A node is unlinked with all its entries. -/
theorem gives_dropNode {Q : Unit → QuickList → Prop} (h : Loose pf ql (as ++ (p, es) :: bs))
    (hfull : ∀ n ∈ as ++ bs, n.2 ≠ []) (hQ : ∀ ql', Stores pf ql' (as ++ bs) → Q () ql') :
    Gives (quicklistDelNode pf p) Q ql := by
  have hcount := h.count
  have hlen := h.len
  have hcountable := h.countable
  have hlinkable := h.linkable
  have hnode : (ql.node p).count = es.length := h.counted _ mem_self
  have hn := h.toNodes.erase (ql.node p)
  have hc := h.counted.erase h.toNodes (ql.node p) (ql.nodes.erase p)
  rw [setNode_self] at hn hc
  rw [total_middle] at hcount hcountable
  rw [List.length_append, List.length_cons] at hlen hlinkable
  refine gives_quicklistDelNode (h.toNodes.mem mem_self) hn hc ?_ fun ql' hunlinked => hQ ql' ?_
  · rw [List.length_append]
    omega
  · refine ⟨hunlinked.nodes, hunlinked.counted, ?_, ?_, hfull, fun n hn => h.short n (mem_around hn),
      ?_, ?_⟩
    · rw [hunlinked.count, hnode, hcount, total_append]
      unfold toULong
      omega
    · rw [hunlinked.len, hlen, List.length_append]
      unfold toUInt
      omega
    · rw [total_append]
      omega
    · rw [List.length_append]
      omega

section node

variable {Q : Unit → QuickList → Prop} {offset : Int} {k del : Nat}

/-- `quicklistDelRange` on a node, up to the test whether an entry is left. -/
theorem gives_delFromNode_test (h : Stores pf ql (as ++ (p, es) :: bs)) (hlow : -(2 ^ 31) ≤ offset)
    (hhigh : offset < 2 ^ 31) (hpos : position es.length offset = some k) (hdel : del < 2 ^ 32)
    (hsmall : 11 + size (deleteEntries es k del) < 2 ^ 32)
    (hQ : ∀ ql₁ node, Stores pf ql₁ (as ++ (p, es) :: bs) → NodeHolds pf node (deleteEntries es k del) →
      node.count = ((es.length - del : Int) % 2 ^ 16).toNat →
      Gives (if node.count = 0 then quicklistDelNode pf p else quicklistRecompressOnly pf p) Q
        { ql₁.setNode p node with count := toULong (ql₁.count + -(del : Int)) }) :
    Gives (delFromNode pf p offset del) Q ql := by
  unfold Gives delFromNode
  rw [yields_bind]
  refine gives_decompressForUse h.toNodes mem_self fun ql₁ hopen _ => ?_
  have h₁ := h.framed hopen.nodes hopen.frame
  have hp : p ∈ ql₁.nodes := hopen.nodes.mem mem_self
  obtain ⟨zl, hzl, hrep⟩ := hopen.raw
  obtain ⟨zl', hzl', hrep'⟩ := @ziplistDeleteRange_spec zl es pf.mem offset del hrep hlow hhigh (by
    unfold deleteRange
    rw [hpos]
    exact hsmall)
  unfold deleteRange at hrep'
  rw [hpos] at hrep'
  dsimp only at hrep'
  rw [yields_bind]
  refine gives_rawAt hp hzl ?_
  rw [toUInt_eq hdel, hzl', yields_bind, yields_orFail, yields_bind]
  refine gives_setZl hp ?_
  rw [yields_bind]
  refine gives_updateSz hp (by rw [setNode_same]) hrep' ?_
  rw [setNode_setNode, setNode_same, yields_bind]
  refine gives_nodeAt hp ?_
  rw [setNode_same, yields_bind]
  refine gives_setCount hp ?_
  rw [setNode_setNode, setNode_same]
  unfold Quicklist.addCount
  rw [yields_bind, yields_modify, yields_bind]
  refine gives_nodeAt hp ?_
  dsimp only
  rw [setNode_same]
  refine hQ ql₁ _ h₁ (nodeHolds_raw hrep') ?_
  rw [h₁.counted _ mem_self]

/-- `quicklistDelRange` on a node of which entries stay, or none. -/
theorem gives_delFromNode (h : Stores pf ql (as ++ (p, es) :: bs)) (hlow : -(2 ^ 31) ≤ offset)
    (hhigh : offset < 2 ^ 31) (hpos : position es.length offset = some k) (hdel : k + del ≤ es.length)
    (hsmall : 11 + size (deleteEntries es k del) < 2 ^ 32)
    (hQ : ∀ ql' ms, elements ms = (contents es).take k ++ (contents es).drop (k + del) →
      Stores pf ql' (as ++ (ms ++ bs)) → Q () ql') :
    Gives (delFromNode pf p offset del) Q ql := by
  have hshort : es.length < 2 ^ 16 := h.short _ mem_self
  have hlength : (deleteEntries es k del).length = es.length - del := by
    rw [length_deleteEntries]
    omega
  refine gives_delFromNode_test h hlow hhigh hpos (by omega) hsmall fun ql₁ node h₁ hn hcount => ?_
  have htotal := h₁.count
  have hcountable := h₁.countable
  have hnode : node.count = (deleteEntries es k del).length := by
    rw [hcount, hlength]
    omega
  rw [total_middle] at htotal hcountable
  have hless : total (as ++ (p, deleteEntries es k del) :: bs) =
      total as + (es.length - del) + total bs := by rw [total_middle, hlength]
  have hedited : Loose pf { ql₁.setNode p node with count := toULong (ql₁.count + -(del : Int)) }
      (as ++ (p, deleteEntries es k del) :: bs) := by
    refine h₁.loose.edited hn hnode ?_ (by omega)
    rw [hless, htotal]
    unfold toULong
    omega
  have helements : elements [(p, deleteEntries es k del)] =
      (contents es).take k ++ (contents es).drop (k + del) := by
    rw [elements_cons, elements_nil, List.append_nil, contents_deleteEntries]
  split
  · next hzero =>
      -- no entry is left, and the node goes
      have hnil := List.length_eq_zero_iff.mp (hnode.symm.trans hzero)
      refine gives_dropNode hedited (fun n hn => h.full n (mem_around hn)) fun ql' hstores => ?_
      refine hQ ql' [] ?_ hstores
      rw [← helements, hnil]
      rfl
  · next hsome =>
      refine gives_recompressOnly hedited.toNodes (hedited.toNodes.mem mem_self) fun ql' hrec hnodes => ?_
      refine hQ ql' [(p, deleteEntries es k del)] helements (Stores.framed (hedited.stores ?_) hnodes
        hrec.frame)
      intro n hn
      rcases mem_middle hn with rfl | hin
      · exact fun hnil => hsome (hnode.trans (List.length_eq_zero_iff.mpr hnil))
      · exact h.full n (mem_around hin)

/-- More is counted than there is to delete, but less than the node has. -/
theorem gives_delFromNode_past (h : Stores pf ql (as ++ (p, es) :: bs)) (hlow : -(2 ^ 31) ≤ offset)
    (hhigh : offset < 2 ^ 31) (hpos : position es.length offset = some k) (hdel : del < es.length)
    (hpast : es.length ≤ k + del)
    (hQ : ∀ ql', Nodes pf ql' (as ++ (p, deleteEntries es k del) :: bs) → Q () ql') :
    Gives (delFromNode pf p offset del) Q ql := by
  have hshort : es.length < 2 ^ 16 := h.short _ mem_self
  obtain ⟨zl, -, -, hrep⟩ := h.holds _ mem_self
  have hsmall := hrep.small
  have hless := size_deleteEntries_last hpast
  dsimp only at hsmall
  refine gives_delFromNode_test h hlow hhigh hpos (by omega) (by omega) fun ql₁ node h₁ hn hcount => ?_
  have hset := h₁.toNodes.setNode hn
  rw [if_neg (by omega)]
  exact gives_recompressOnly ⟨hset.nodes, hset.nodup, hset.old, hset.holds⟩ (hset.mem mem_self)
    fun ql' _ hnodes => hQ ql' hnodes

end node

theorem gives_delRangeLoop_done {Q : Unit → QuickList → Prop} {fuel : Nat} {offset : Int}
    {next : Option Nat} (hfuel : 0 < fuel) (hQ : Q () ql) :
    Gives (delRangeLoop pf fuel (toULong 0) offset next) Q ql := by
  rcases fuel with _ | fuel
  · cases hfuel
  · unfold Gives delRangeLoop
    rw [yields_ite, if_pos (show toULong 0 = 0 from rfl), yields_pure]
    exact hQ

/-- The loop of `quicklistDelRange` from the start of a node on. -/
theorem gives_delRangeLoop {Q : Unit → QuickList → Prop} {cs : Shape} : ∀ {fuel : Nat} {as : Shape}
    {extent : Nat} {ql : QuickList}, Stores pf ql (as ++ cs) → extent ≤ total cs → cs.length < fuel →
    (∀ ql' ms, elements ms = (elements cs).drop extent → Stores pf ql' (as ++ ms) → Q () ql') →
    Gives (delRangeLoop pf fuel extent 0 (cs.map Prod.fst).head?) Q ql := by
  induction cs with
  | nil =>
      intro fuel as extent ql h hextent hfuel hQ
      rcases fuel with _ | fuel
      · cases hfuel
      · unfold Gives delRangeLoop
        rw [yields_ite, if_pos (Nat.le_zero.mp hextent), yields_pure]
        exact hQ ql [] List.drop_nil.symm h
  | cons n cs ih =>
      intro fuel as extent ql h hextent hfuel hQ
      obtain ⟨p, es⟩ := n
      rcases fuel with _ | fuel
      · cases hfuel
      · have hp : p ∈ ql.nodes := h.toNodes.mem mem_self
        have hnode : (ql.node p).count = es.length := h.counted _ mem_self
        rw [total_cons] at hextent
        dsimp only at hextent
        rw [List.length_cons] at hfuel
        unfold Gives delRangeLoop
        rw [yields_ite]
        split
        · next hzero =>
            rw [yields_pure]
            exact hQ ql _ (by rw [hzero, List.drop_zero]) h
        · next hsome =>
            rw [List.map_cons, List.head?_cons]
            unfold deref
            rw [yields_bind, yields_orFail, yields_bind]
            refine gives_nextOf hp ?_
            rw [h.toNodes.next, yields_bind]
            refine gives_nodeAt hp ?_
            rw [hnode, yields_ite]
            split
            · next hwhole =>
                -- the node is deleted
                have hall : es.length ≤ extent := hwhole.2
                rw [yields_bind]
                refine gives_dropNode h.loose (fun n hn => h.full n (mem_around hn)) fun ql₁ h₁ => ?_
                refine ih h₁ (by omega) (by omega) fun ql' ms helements hstores => hQ ql' ms ?_ hstores
                have hnone : (contents es).drop extent = [] :=
                  List.drop_eq_nil_of_le (by rw [length_contents]; exact hall)
                rw [helements, elements_cons, List.drop_append, length_contents, hnone]
                rfl
            · next hpart =>
                have hless : extent < es.length := by omega
                obtain ⟨zl, -, -, hrep⟩ := h.holds _ mem_self
                have hsmall := hrep.small
                have hfirst := size_deleteEntries_first hrep.fits extent
                dsimp only at hsmall hfirst
                rw [if_neg (by omega), if_neg (by omega)]
                dsimp only
                rw [yields_bind]
                refine @gives_delFromNode pf ql p as cs es _ 0 0 extent h (by decide) (by decide) ?_
                  (by rw [Nat.zero_add]; exact Nat.le_of_lt hless) (by omega) fun ql₁ ms hms h₁ => ?_
                · unfold position
                  rw [if_pos (Int.le_refl 0), if_pos (by omega)]
                  rfl
                · rw [Nat.zero_add, List.take_zero, List.nil_append] at hms
                  rw [Int.sub_self]
                  refine gives_delRangeLoop_done (by omega) (hQ ql₁ (ms ++ cs) ?_ h₁)
                  rw [elements_append, hms, elements_cons, List.drop_append_of_le_length
                    (by rw [length_contents]; exact Nat.le_of_lt hless)]

/-- The strings that stay, node by node and in all. -/
theorem Place.elements_deleted (pl : Place) {extent del : Nat}
    (hdel : del = min extent (pl.right.length + 1)) :
    elements pl.before ++ ((contents pl.entries).take pl.left.length ++
      (contents pl.entries).drop (pl.left.length + del) ++ (elements pl.after).drop (extent - del)) =
      (elements pl.shape).take pl.index ++ (elements pl.shape).drop (pl.index + extent) := by
  have hlen := pl.length_entries
  have hsize : (contents pl.entries).length = pl.entries.length := length_contents
  unfold Place.shape Place.index
  rw [elements_middle, ← length_elements, List.take_length_add_append, Nat.add_assoc,
    List.drop_length_add_append, List.take_append_of_le_length (by omega), List.drop_append,
    List.append_assoc, List.append_assoc]
  rcases Nat.le_total extent (pl.right.length + 1) with hle | hle
  · rw [hdel, Nat.min_eq_left hle, Nat.sub_self,
      show pl.left.length + extent - (contents pl.entries).length = 0 by omega]
  · rw [hdel, Nat.min_eq_right hle, List.drop_eq_nil_of_le (by omega),
      @List.drop_eq_nil_of_le _ (contents pl.entries) (pl.left.length + extent) (by omega),
      show pl.left.length + extent - (contents pl.entries).length =
        extent - (pl.right.length + 1) by omega]

/-- The loop from the first entry of the range on. -/
theorem gives_delRangeLoop_first {Q : Unit → QuickList → Prop} {pl : Place} {fuel extent : Nat}
    {forward : Bool} (h : Stores pf ql pl.shape) (hextent : pl.index + extent ≤ total pl.shape)
    (hfuel : pl.after.length + 1 < fuel)
    (hends : forward = true → pl.left ≠ [] → extent < pl.entries.length →
      pl.left.length + extent ≤ pl.entries.length)
    (hsmall : 11 + size (deleteEntries pl.entries pl.left.length extent) < 2 ^ 32)
    (hQ : ∀ ql' ns', elements ns' =
        (elements pl.shape).take pl.index ++ (elements pl.shape).drop (pl.index + extent) →
      Stores pf ql' ns' → Q () ql') :
    Gives (delRangeLoop pf fuel extent (pl.found forward).offset (some pl.node)) Q ql := by
  have hlen := pl.length_entries
  have hp : pl.node ∈ ql.nodes := h.toNodes.mem pl.mem_shape
  have hnode : (ql.node pl.node).count = pl.entries.length := h.counted _ pl.mem_shape
  have hshort : pl.entries.length < 2 ^ 16 := h.short _ pl.mem_shape
  have htotal : total pl.shape = total pl.before + (pl.entries.length + total pl.after) := by
    rw [Place.shape, total_append, total_cons]
  have hindex : pl.index = total pl.before + pl.left.length := rfl
  have hfull : pl.shape = pl.before ++ (pl.node, pl.entries) :: pl.after := rfl
  have hcountable := h.countable
  -- a whole node from its first entry on is no special case
  by_cases hstart : (pl.found forward).offset = 0
  · have hleft : pl.left.length = 0 := by
      unfold Place.found at hstart
      dsimp only at hstart
      split at hstart <;> omega
    rw [hstart]
    refine @gives_delRangeLoop pf Q ((pl.node, pl.entries) :: pl.after) fuel pl.before extent ql h ?_
      hfuel fun ql' ms hms hstores => hQ ql' _ ?_ hstores
    · rw [total_cons]
      dsimp only
      omega
    · rw [elements_append, hms, hindex, hleft, Nat.add_zero, hfull, elements_append, ← length_elements,
        List.take_left, List.drop_length_add_append]
  rcases fuel with _ | fuel
  · cases hfuel
  unfold Gives delRangeLoop
  rw [yields_ite]
  split
  · next hzero =>
      rw [yields_pure]
      exact hQ ql pl.shape (by rw [hzero, Nat.add_zero, List.take_append_drop]) h
  · next hsome =>
      unfold deref
      rw [yields_bind, yields_orFail, yields_bind]
      refine gives_nextOf hp ?_
      rw [h.toNodes.next, yields_bind]
      refine gives_nodeAt hp ?_
      rw [hnode, yields_ite, if_neg (fun hwhole => hstart hwhole.1)]
      -- what is deleted here ends with the range or with the node
      have hdel : (if (pl.found forward).offset ≥ 0 ∧ extent ≥ pl.entries.length then
          toULong (pl.entries.length - (pl.found forward).offset)
        else if (pl.found forward).offset < 0 then
          if toULong (-(pl.found forward).offset) > extent then extent
          else toULong (-(pl.found forward).offset)
        else extent) = min extent (pl.right.length + 1) := by
        unfold Place.found at hstart ⊢
        unfold toULong
        dsimp only at hstart ⊢
        cases forward with
        | true =>
            rw [if_pos rfl] at hstart ⊢
            have hinside := hends rfl fun hnil => hstart (by rw [hnil]; rfl)
            split
            · omega
            · rw [if_neg (by omega)]
              omega
        | false =>
            rw [if_neg Bool.false_ne_true]
            split
            · omega
            · split
              · split <;> omega
              · omega
      dsimp only
      rw [hdel, yields_bind]
      generalize hmin : min extent (pl.right.length + 1) = del
      obtain ⟨hpos, hlow, hhigh⟩ := pl.position_found forward hshort
      have hcut : deleteEntries pl.entries pl.left.length del =
          deleteEntries pl.entries pl.left.length extent := by
        rcases Nat.le_total extent (pl.right.length + 1) with hle | hle
        · rw [← hmin, Nat.min_eq_left hle]
        · exact deleteEntries_past (by omega) (by omega) (by omega)
      refine gives_delFromNode h hlow hhigh hpos (by omega) (hcut ▸ hsmall) fun ql₁ ms hms h₁ => ?_
      rw [show toULong (extent - del : Int) = extent - del by unfold toULong; omega]
      rw [← List.append_assoc] at h₁
      refine gives_delRangeLoop h₁ (by omega) (by omega) fun ql' ls hls hstores =>
        hQ ql' _ ?_ hstores
      rw [elements_append, elements_append, hms, hls, ← pl.elements_deleted hmin.symm,
        List.append_assoc]

/-- What `quicklistDelRange` is for. -/
def Deletes (pf : Platform) (ns : Shape) (start count : Int) (ql : QuickList) (done : Bool)
    (ql' : QuickList) : Prop :=
  match position (total ns) start with
  | none => done = false ∧ ql' = ql
  | some k => done = true ∧ ∃ ns', Stores pf ql' ns' ∧
      elements ns' = (elements ns).take k ++ (elements ns).drop (k + count.toNat)

/-- The range begins inside of a node, counted from the head, it passes the end of this node, and
yet it is shorter than the node. -/
def Straddles (ns : Shape) (start count : Int) : Prop :=
  0 ≤ start ∧ ∃ pl : Place, pl.shape = ns ∧ start = pl.index ∧ pl.left ≠ [] ∧
    min count.toNat (total ns - pl.index) < pl.entries.length ∧
    pl.entries.length < pl.left.length + min count.toNat (total ns - pl.index)

/-- The ziplist that is cut takes less than 2^32 bytes. -/
def DeleteFits (ns : Shape) (start count : Int) : Prop :=
  ∀ pl : Place, pl.shape = ns → position (total ns) start = some pl.index →
    11 + size (deleteEntries pl.entries pl.left.length count.toNat) < 2 ^ 32

section range

variable {start count : Int} {k : Nat}

/-- The extent of the range, clipped to the end of the list. -/
theorem extent_eq (h : Stores pf ql ns) (hcount : 0 < count) (hhigh : count < 2 ^ 63)
    (hpos : position (total ns) start = some k) :
    (if start ≥ 0 ∧ toULong count > toULong (ql.count - start) then toULong (ql.count - start)
      else if start < 0 ∧ toULong count > toULong (-start) then toULong (-start)
      else toULong count) = min count.toNat (total ns - k) := by
  obtain ⟨hk, hcases⟩ := position_eq_some hpos
  have hcountable := h.countable
  rw [h.count]
  unfold toULong
  rcases hcases with ⟨hforward, hstart⟩ | ⟨hback, hstart⟩
  · rw [if_neg (by omega : ¬ (start < 0 ∧ _))]
    split <;> omega
  · rw [if_neg (by omega)]
    split <;> omega

/-- `quicklistDelRange` out of range. -/
theorem gives_quicklistDelRange_none {Q : Bool → QuickList → Prop} (h : Stores pf ql ns)
    (hlow : -(2 ^ 63) ≤ start) (hcount : 0 < count) (hpos : position (total ns) start = none)
    (hQ : Q false ql) : Gives (quicklistDelRange pf start count) Q ql := by
  unfold Gives quicklistDelRange
  rw [yields_ite, if_neg (by omega), yields_bind, yields_get]
  dsimp only
  rw [yields_bind]
  exact gives_quicklistIndex_none h hlow hpos hQ

/-- `quicklistDelRange` in range, up to the loop. -/
theorem gives_quicklistDelRange_loop {Q : Bool → QuickList → Prop} (h : Stores pf ql ns)
    (hlow : -(2 ^ 63) ≤ start) (hcount : 0 < count) (hhigh : count < 2 ^ 63)
    (hpos : position (total ns) start = some k)
    (hQ : ∀ (pl : Place) (ql' : QuickList), pl.shape = ns → pl.index = k → Stores pf ql' pl.shape →
      Gives (delRangeLoop pf (ns.length + 1) (min count.toNat (total ns - k))
        (pl.found (decide (0 ≤ start))).offset (some pl.node)) (fun _ => Q true) ql') :
    Gives (quicklistDelRange pf start count) Q ql := by
  unfold Gives quicklistDelRange
  rw [yields_ite, if_neg (by omega), yields_bind, yields_get]
  dsimp only
  rw [extent_eq h hcount hhigh hpos, yields_bind]
  refine gives_quicklistIndex h hlow hpos fun pl ql₁ hshape hindex hopen _ => ?_
  have h₁ := h.framed hopen.nodes hopen.frame
  dsimp only
  rw [yields_bind, yields_get, yields_bind, h₁.nodes, List.length_map]
  exact hQ pl ql₁ hshape hindex (hshape ▸ h₁)

/-- `quicklistDelRange` deletes what it is asked for. -/
theorem quicklistDelRange_done (h : Stores pf ql ns) (hlow : -(2 ^ 63) ≤ start) (hcount : 0 < count)
    (hhigh : count < 2 ^ 63) (hfits : DeleteFits ns start count) (hends : ¬ Straddles ns start count) :
    Gives (quicklistDelRange pf start count) (Deletes pf ns start count ql) ql := by
  unfold Deletes
  rcases hpos : position (total ns) start with _ | k
  · exact gives_quicklistDelRange_none h hlow hcount hpos ⟨rfl, rfl⟩
  · obtain ⟨hk, hcases⟩ := position_eq_some hpos
    refine gives_quicklistDelRange_loop h hlow hcount hhigh hpos fun pl ql₁ hshape hindex h₁ => ?_
    have htotal := pl.total_shape
    have hlen := pl.length_entries
    rw [hshape] at htotal
    refine gives_delRangeLoop_first h₁ ?_ ?_ ?_ ?_ fun ql' ns' helements hstores =>
      ⟨rfl, ns', hstores, ?_⟩
    · rw [hshape]
      omega
    · rw [← hshape]
      unfold Place.shape
      rw [List.length_append, List.length_cons]
      omega
    · intro hforward hleft hshort
      by_contra hpast
      have hstart := of_decide_eq_true hforward
      exact hends ⟨hstart, pl, hshape, by omega, hleft, hindex ▸ hshort, hindex ▸ by omega⟩
    · have hsmall := hfits pl hshape (hindex ▸ hpos)
      rcases Nat.le_total count.toNat (total ns - k) with hle | hle
      · rwa [Nat.min_eq_left hle]
      · rwa [@deleteEntries_past _ pl.left.length _ count.toNat (by omega) (by omega) (by omega)]
    · rw [helements, hshape, hindex]
      rcases Nat.le_total count.toNat (total ns - k) with hle | hle
      · rw [Nat.min_eq_left hle]
      · have hlength := length_elements ns
        rw [List.drop_eq_nil_of_le (by omega), List.drop_eq_nil_of_le (by omega)]

/-- A range that straddles the end of its first node is not deleted to its end. -/
theorem quicklistDelRange_straddling (h : Stores pf ql ns) (hcount : 0 < count) (hhigh : count < 2 ^ 63)
    (hends : Straddles ns start count) :
    Gives (quicklistDelRange pf start count)
      (fun _ ql' => ∃ ns', Nodes pf ql' ns' ∧
        total ns < total ns' + min count.toNat (total ns - start.toNat)) ql := by
  obtain ⟨hforward, pl, rfl, rfl, hleft, hshort, hpast⟩ := hends
  have htotal := pl.total_shape
  have hlen := pl.length_entries
  have hcountable := h.countable
  have hfull := h.short _ pl.mem_shape
  have hone : 1 ≤ pl.left.length := List.length_pos_iff.mpr hleft
  dsimp only at hfull
  have hpos : position (total pl.shape) pl.index = some pl.index := by
    unfold position
    rw [if_pos hforward, if_pos (by omega), Int.toNat_natCast]
  refine gives_quicklistDelRange_loop h (by omega) hcount hhigh hpos fun pl' ql₁ hshape hindex h₁ => ?_
  rw [Place.unique hshape hindex] at h₁ ⊢
  rw [decide_eq_true hforward, Int.toNat_natCast]
  generalize hextent : min count.toNat (total pl.shape - pl.index) = extent at hshort hpast
  have hp : pl.node ∈ ql₁.nodes := h₁.toNodes.mem pl.mem_shape
  have hnode : (ql₁.node pl.node).count = pl.entries.length := h₁.counted _ pl.mem_shape
  obtain ⟨hposition, hlow, hhigh'⟩ := pl.position_found true hfull
  have hoffset : (pl.found true).offset = pl.left.length := rfl
  unfold Gives delRangeLoop
  rw [yields_ite, if_neg (by omega)]
  unfold deref
  rw [yields_bind, yields_orFail, yields_bind]
  refine gives_nextOf hp ?_
  rw [yields_bind]
  refine gives_nodeAt hp ?_
  -- the whole extent is taken for a part of this node, and nothing is left for the next one
  rw [hnode, yields_ite, if_neg (by omega), if_neg (by omega), if_neg (by omega)]
  dsimp only
  rw [yields_bind]
  refine gives_delFromNode_past h₁ hlow hhigh' hposition hshort (by omega) fun ql₂ hnodes => ?_
  rw [Int.sub_self]
  refine gives_delRangeLoop_done ?_ ⟨_, hnodes, ?_⟩
  · unfold Place.shape
    rw [List.length_append, List.length_cons]
    omega
  · rw [total_middle, length_deleteEntries, htotal]
    unfold Place.index
    omega

theorem not_deletes_of_straddles (h : Stores pf ql ns) (hcount : 0 < count) (hhigh : count < 2 ^ 63)
    (hends : Straddles ns start count) :
    ¬ Gives (quicklistDelRange pf start count) (Deletes pf ns start count ql) ql := by
  intro hdone
  obtain ⟨done, ql', hresult, ns', hnodes, hmore⟩ := Gives.exists
    (yields_and hdone (quicklistDelRange_straddling h hcount hhigh hends))
  obtain ⟨hforward, pl, rfl, rfl, -⟩ := hends
  have htotal := pl.total_shape
  unfold Deletes at hresult
  rw [show position (total pl.shape) pl.index = some pl.index by
    unfold position
    rw [if_pos hforward, if_pos (by omega), Int.toNat_natCast]] at hresult
  obtain ⟨-, ms, hms, helements⟩ := hresult
  have hlength := congrArg List.length helements
  rw [← hnodes.elements_eq hms.toNodes, List.length_append, List.length_take, List.length_drop,
    length_elements, length_elements] at hlength
  rw [Int.toNat_natCast] at hmore
  omega

/-- `quicklistDelRange` is right on all other ranges, and on no such range. -/
theorem quicklistDelRange_deletes (pf : Platform) (h : Stores pf ql ns) (hlow : -(2 ^ 63) ≤ start)
    (hcount : 0 < count) (hhigh : count < 2 ^ 63) (hfits : DeleteFits ns start count) :
    Gives (quicklistDelRange pf start count) (Deletes pf ns start count ql) ql ↔
      ¬ Straddles ns start count :=
  ⟨fun hdone hends => not_deletes_of_straddles h hcount hhigh hends hdone,
    quicklistDelRange_done h hlow hcount hhigh hfits⟩

end range

/-- Entries of one byte. -/
def letters (n : Nat) : List Entry := List.replicate n (strEntry false tinyString (by decide))

/-- Four entries and two. -/
def sixLetters : QuickList := listOf [letters 4, letters 2] 4 0

theorem sixLetters_stores (pf : Platform) : Stores pf sixLetters (shapeOf [letters 4, letters 2]) := by
  refine listOf_stores (fun es hes => ?_) (by decide) (by decide)
  rcases List.mem_pair.mp hes with rfl | rfl
  · exact ⟨by decide, by decide, ⟨fun _ => by decide, fun _ => by decide, fun _ => by decide,
      fun _ => by decide, trivial⟩, by decide⟩
  · exact ⟨by decide, by decide, ⟨fun _ => by decide, fun _ => by decide, trivial⟩, by decide⟩

/-- The third entry. -/
def thirdLetter : Place :=
  ⟨[], 0, letters 2, strEntry false tinyString (by decide), letters 1, [(1, letters 2)]⟩

/-- The last two. -/
theorem quicklistDelRange_deletes_last :
    Gives (quicklistDelRange plainPlatform (-2) 5)
      (Deletes plainPlatform (shapeOf [letters 4, letters 2]) (-2) 5 sixLetters) sixLetters ↔
        ¬ Straddles (shapeOf [letters 4, letters 2]) (-2) 5 := by
  refine quicklistDelRange_deletes plainPlatform (sixLetters_stores _) (by decide) (by decide)
    (by decide) fun pl hshape hpos => ?_
  have hplace : pl = ⟨[(0, letters 4)], 1, [], strEntry false tinyString (by decide), letters 1, []⟩ :=
    Place.unique hshape (Option.some.inj hpos).symm
  rw [hplace]
  decide

/-- From the third entry on three are to go: the second node keeps one too many. -/
theorem quicklistDelRange_short :
    Stores plainPlatform sixLetters (shapeOf [letters 4, letters 2]) ∧
      ¬ Gives (quicklistDelRange plainPlatform 2 3)
        (Deletes plainPlatform (shapeOf [letters 4, letters 2]) 2 3 sixLetters) sixLetters :=
  ⟨sixLetters_stores _, not_deletes_of_straddles (sixLetters_stores _) (by decide) (by decide)
    ⟨by decide, thirdLetter, rfl, rfl, by decide, by decide, by decide⟩⟩

end Quicklist

end RedisCore
