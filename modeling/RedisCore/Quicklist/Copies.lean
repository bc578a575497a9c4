/-
# `RedisCore.Quicklist.Copies` — lists made of ziplists and of other lists

A ziplist becomes a node as it is, or its values are pushed one after the other, each as the
string that it stands for.  A list is copied node by node, and the nodes inside of the copy are
compressed on the way.
-/
import RedisCore.Quicklist.Insert

namespace RedisCore

namespace Quicklist

open CInt Marked Ziplist

variable {pf : Platform} {ql : QuickList} {p : Nat} {ns ms cs : Shape} {es left right : List Entry}
  {zl : Bytes} {l : List Bytes} {fuel : Nat}

/-! ## Values of ziplists -/

/-- The strings can be pushed. -/
def Pushable (es : List Entry) : Prop := ∀ e ∈ es, e.bytes.length < 2 ^ 31 - 13

/-- The loop of `quicklistAppendValuesFromZiplist`, at an entry or at the end. -/
theorem gives_appendValues (hrep : Ziplist.Represents zl (left ++ right)) (h : IsDeque pf ql l)
    (hpush : Pushable right) (hfuel : right.length < fuel)
    (hmany : ql.nodes.length + right.length < 2 ^ 32) :
    Gives (appendValues pf zl fuel (if right = [] then none else some (10 + size left)))
      (fun _ ql' => ql'.nodes.length ≤ ql.nodes.length + right.length ∧
        IsDeque pf ql' (l ++ contents right)) ql := by
  induction right generalizing left ql l fuel with
  | nil =>
      obtain ⟨fuel, rfl⟩ := Nat.exists_eq_add_one_of_ne_zero (Nat.ne_of_gt (Nat.zero_lt_of_lt hfuel))
      rw [if_pos rfl]
      unfold Gives appendValues ziplistGet
      rw [yields_bind, yields_orFail]
      exact ⟨Nat.le_refl _, by rwa [contents_nil, List.append_nil]⟩
  | cons e right ih =>
      obtain ⟨fuel, rfl⟩ := Nat.exists_eq_add_one_of_ne_zero (Nat.ne_of_gt (Nat.zero_lt_of_lt hfuel))
      rw [List.length_cons] at hfuel hmany
      rw [if_neg (List.cons_ne_nil _ _)]
      unfold Gives appendValues
      rw [ziplistGet_spec hrep, yields_bind, yields_orFail]
      dsimp only
      rw [yields_bind]
      have hpushed := @gives_quicklistPush pf ql .TAIL l (valueBytes e.value) h
        (hpush e List.mem_cons_self)
      refine yields_mono hpushed fun _ ql₁ hdone => ?_
      obtain ⟨hle, hgood⟩ := hdone
      rw [ziplistNext_spec hrep, yields_bind, yields_orFail]
      rw [← List.singleton_append, ← List.append_assoc] at hrep
      have hrest := @ih ql₁ (left ++ [e]) (addTo l (valueBytes e.value) .TAIL) fuel hrep
        (hgood (by omega)) (fun f hf => hpush f (List.mem_cons_of_mem _ hf)) (by omega) (by omega)
      refine yields_mono hrest fun _ ql₂ hdone => ?_
      obtain ⟨hle₂, hdone⟩ := hdone
      constructor
      · rw [List.length_cons]
        omega
      · rw [contents_cons, ← List.singleton_append, ← List.append_assoc]
        exact hdone

theorem gives_quicklistAppendValuesFromZiplist (hrep : Ziplist.Represents zl es)
    (h : IsDeque pf ql l) (hpush : Pushable es) (hmany : ql.nodes.length + es.length < 2 ^ 32) :
    Gives (quicklistAppendValuesFromZiplist pf zl)
      (fun _ ql' => ql'.nodes.length ≤ ql.nodes.length + es.length ∧
        IsDeque pf ql' (l ++ contents es)) ql := by
  have hlen := hrep.length
  have hshort := @length_le_size es
  unfold Gives quicklistAppendValuesFromZiplist
  rw [ziplistIndex_spec hrep (by decide) (by decide), yields_bind, yields_orFail]
  have hfirst : (position es.length 0).map (fun k => 10 + size (es.take k)) =
      if es = [] then none else some (10 + size []) := by
    unfold position
    rw [if_pos (Int.le_refl 0)]
    rcases es with _ | ⟨e, es⟩
    · rfl
    · rw [if_pos (by simp), if_neg (List.cons_ne_nil _ _)]
      rfl
  rw [hfirst]
  exact gives_appendValues (show Ziplist.Represents zl ([] ++ es) from hrep) h hpush (by omega) hmany

variable (pf) in
/-- `quicklistCreateFromZiplist`. -/
def quicklistCreateFromZiplist (fill compress : Int) (zl : Bytes) : M QuickList := do
  let ((), ql) ← runOn (quicklistNew fill compress) (quicklistAppendValuesFromZiplist pf zl)
  return ql

theorem gives_quicklistCreateFromZiplist {fill compress : Int} (hrep : Ziplist.Represents zl es)
    (hpush : Pushable es) (hmany : es.length < 2 ^ 32) :
    Gives (quicklistCreateFromZiplist pf fill compress zl)
      (fun new ql' => ql' = ql ∧ IsDeque pf new (contents es)) ql := by
  unfold Gives quicklistCreateFromZiplist
  rw [yields_bind, yields_runOn]
  refine yields_mono (gives_quicklistAppendValuesFromZiplist hrep
    (quicklistNew_isDeque pf fill compress) hpush ?_) fun _ new hdone => ⟨rfl, hdone.2⟩
  show 0 + es.length < 2 ^ 32
  omega

/-! ## Ziplists as nodes -/

/-- A list whose number of entries is another one. -/
theorem Woven.recount (h : Woven pf ql ns) {count : Nat} (hcount : count < 2 ^ 64) :
    Woven pf { ql with count := count } ns :=
  ⟨⟨h.nodes, h.nodup, h.old, h.holds⟩, h.counted, h.len, h.short, hcount, h.linkable⟩

/-- A node at the tail. -/
theorem gives_appendNode {Q : Nat → QuickList → Prop} {node : QuicklistNode}
    (h : Woven pf ql ns) (hn : NodeHolds pf node es) (hcount : node.count = es.length)
    (hshort : es.length < 2 ^ 16) (hmany : ns.length + 1 < 2 ^ 32)
    (hQ : ∀ ql', Woven pf ql' (ns ++ [(ql.fresh, es)]) → ql'.count = ql.count →
      (Settled pf ql → node.zl.IsRaw → node.recompress = false → Settled pf ql') →
      Q ql.fresh ql') :
    Gives (quicklistInsertNode pf ql.tail node true) Q ql := by
  refine gives_insertAtEnd .TAIL h.toNodes h.len hn fun ql₁ hl => ?_
  have hns : ns ++ [] = ns := List.append_nil ns
  refine hQ ql₁ (Woven.linked (hns.symm ▸ h) hl hcount hshort ?_) hl.count fun hs hraw hflag => ?_
  · rw [List.length_nil]
    exact hmany
  · refine hl.settled hs hraw hflag ?_
    rw [h.len, h.nodes, List.length_map]

theorem total_concat (ns : Shape) (n : Nat × List Entry) : total (ns ++ [n]) = total ns + n.2.length := by
  rw [total_append, total_cons, total_nil, Nat.add_zero]

/-- `quicklistAppendZiplist` of a ziplist whose entries 16 bits count. -/
theorem gives_quicklistAppendZiplist (hrep : Ziplist.Represents zl es) (h : IsDeque pf ql l)
    (hes : es ≠ []) (hshort : es.length < 2 ^ 16) (hsize : 11 + size es ≤ 2 ^ 31 + 3)
    (hmany : ql.nodes.length + 1 < 2 ^ 32) :
    Gives (quicklistAppendZiplist pf zl)
      (fun _ ql' => ql'.nodes.length ≤ ql.nodes.length + 1 ∧ IsDeque pf ql' (l ++ contents es)) ql := by
  obtain ⟨ns, hstores, hsettled, hsized, rfl⟩ := h
  obtain ⟨zl', hlen, hrep'⟩ := ziplistLen_spec hrep
  have hnodes : ql.nodes.length = ns.length := by rw [hstores.nodes, List.length_map]
  have hmod : es.length % 2 ^ 16 = es.length := Nat.mod_eq_of_lt hshort
  have hless := total_lt hstores.short hstores.linkable
  unfold Gives quicklistAppendZiplist
  rw [hlen, yields_bind, yields_orFail]
  dsimp only
  rw [ziplistBlobLen_spec hrep', yields_bind, yields_orFail, hmod, yields_bind, yields_get,
    yields_bind]
  refine gives_appendNode hstores.loose.woven (nodeHolds_raw hrep') rfl hshort (by omega)
    fun ql₁ h₁ hcount hkept => ?_
  have hmore : toULong ((ql₁.count : Int) + (es.length : Nat)) = total (ns ++ [(ql.fresh, es)]) := by
    rw [hcount, hstores.count, ← Nat.cast_add, toULong_eq (by omega), total_concat]
  have hbound : total (ns ++ [(ql.fresh, es)]) < 2 ^ 64 := by
    rw [total_concat]
    dsimp only
    omega
  show _ ∧ IsDeque pf { ql₁ with count := toULong ((ql₁.count : Int) + (es.length : Nat)) } _
  rw [hmore]
  have hmiddle : ∀ {R : Nat × List Entry → Prop}, (∀ n ∈ ns, R n) → R (ql.fresh, es) →
      ∀ n ∈ ns ++ [(ql.fresh, es)], R n := fun hall hnew =>
    forall_middle (fun n hn => hall n (by rwa [List.append_nil] at hn)) hnew
  refine ⟨?_, ns ++ [(ql.fresh, es)], ?_, ?_, hmiddle hsized hsize, ?_⟩
  · show ql₁.nodes.length ≤ _
    rw [h₁.nodes, List.length_map, List.length_append, List.length_singleton, hnodes]
  · exact ((h₁.recount hbound).loose rfl).stores (hmiddle hstores.full hes)
  · exact (hkept hsettled trivial rfl).congr rfl rfl rfl rfl
  · rw [elements_append, elements_cons, elements_nil, List.append_nil]

/-! ## Loading -/

/-- What a list is loaded from. -/
inductive Load
  | ziplist (zl : Bytes)
  | values (zl : Bytes)
  | value (s : Bytes)

/-- `quicklistAppendZiplist`, `quicklistAppendValuesFromZiplist` or `quicklistPushTail`. -/
def Load.run (pf : Platform) : Load → M Unit
  | .ziplist zl => quicklistAppendZiplist pf zl
  | .values zl => quicklistAppendValuesFromZiplist pf zl
  | .value s => do
      let _ ← quicklistPushTail pf s

def runLoads (pf : Platform) : List Load → M Unit
  | [] => return ()
  | load :: loads => do
      load.run pf
      runLoads pf loads

/-- A piece of a list: the strings it stands for, and how many nodes they get at most. -/
inductive Loads : Load → List Bytes → Nat → Prop
  | ziplist {zl : Bytes} {es : List Entry} (hrep : Ziplist.Represents zl es) (hes : es ≠ [])
      (hshort : es.length < 2 ^ 16) (hsize : 11 + size es ≤ 2 ^ 31 + 3) :
      Loads (.ziplist zl) (contents es) 1
  | values {zl : Bytes} {es : List Entry} (hrep : Ziplist.Represents zl es) (hpush : Pushable es) :
      Loads (.values zl) (contents es) es.length
  | value {s : Bytes} (hs : s.length < 2 ^ 31 - 13) : Loads (.value s) [s] 1

/-- All pieces of a list. -/
inductive AllLoads : List Load → List Bytes → Nat → Prop
  | nil : AllLoads [] [] 0
  | cons {load : Load} {loads : List Load} {l l' : List Bytes} {n n' : Nat} (h : Loads load l n)
      (h' : AllLoads loads l' n') : AllLoads (load :: loads) (l ++ l') (n + n')

theorem Loads.gives {load : Load} {l' : List Bytes} {n : Nat} (hload : Loads load l' n)
    (h : IsDeque pf ql l) (hmany : ql.nodes.length + n < 2 ^ 32) :
    Gives (load.run pf)
      (fun _ ql' => ql'.nodes.length ≤ ql.nodes.length + n ∧ IsDeque pf ql' (l ++ l')) ql := by
  cases hload with
  | ziplist hrep hes hshort hsize =>
      exact gives_quicklistAppendZiplist hrep h hes hshort hsize hmany
  | values hrep hpush => exact gives_quicklistAppendValuesFromZiplist hrep h hpush hmany
  | @value s hs =>
      unfold Load.run Gives
      dsimp only
      rw [yields_bind]
      refine yields_mono (@gives_quicklistPush pf ql .TAIL l s h hs) fun _ ql' hdone => ?_
      exact ⟨hdone.1, hdone.2 (by omega)⟩

/-- Two entries as a node and once more as values, and a string between them. -/
@[irreducible] def lettersTwice : List Load :=
  [.ziplist (layout 2 (letters 2)), .value [7], .values (layout 2 (letters 2))]

theorem lettersTwice_loads : AllLoads lettersTwice [[0], [0], [7], [0], [0]] 4 := by
  have hrep : Ziplist.Represents (layout 2 (letters 2)) (letters 2) :=
    ⟨⟨2, rfl, .inr ⟨by decide, rfl⟩⟩, ⟨fun _ => by decide, fun _ => by decide, trivial⟩, by decide⟩
  have hpush : Pushable (letters 2) := by
    unfold Pushable
    decide
  have hall : AllLoads [.ziplist (layout 2 (letters 2)), .value [7], .values (layout 2 (letters 2))]
      (contents (letters 2) ++ ([[7]] ++ (contents (letters 2) ++ []))) (1 + (1 + (2 + 0))) :=
    .cons (.ziplist hrep (by decide) (by decide) (by decide))
      (.cons (.value (by decide)) (.cons (.values hrep hpush) .nil))
  have hstrings : contents (letters 2) ++ ([[7]] ++ (contents (letters 2) ++ [])) =
      [[0], [0], [7], [0], [0]] := by decide
  rw [hstrings] at hall
  unfold lettersTwice
  exact hall

/-- A raw node is copied whole. -/
theorem gives_dupNode {Q : QuicklistNode → QuickList → Prop} {node : QuicklistNode}
    (hn : NodeHolds pf node es) (hraw : node.zl.IsRaw)
    (hQ : ∀ copy, NodeHolds pf copy es → copy.count = node.count → Q copy ql) :
    Gives (dupNode node) Q ql := by
  obtain ⟨zl, hzl, hlen, hrep⟩ := hn.of_raw hraw
  unfold Gives dupNode
  rw [hzl]
  dsimp only
  rw [← hlen, readAt_whole, yields_bind, yields_orFail, yields_pure]
  exact hQ _ ⟨zl, rfl, rfl, hrep⟩ rfl

/-- The loop of `quicklistDup`. -/
theorem gives_dupLoop {orig : QuickList} {Q : Unit → QuickList → Prop}
    (horig : ∀ n ∈ cs, NodeHolds pf (orig.node n.1) n.2 ∧ orig.Raw n.1 ∧
      (orig.node n.1).count = n.2.length ∧ n.2.length < 2 ^ 16 ∧ n.2 ≠ [])
    (h : Stores pf ql ms) (hmany : ms.length + cs.length < 2 ^ 32)
    (hQ : ∀ ql' ms', Stores pf ql' ms' → ms'.map Prod.snd = ms.map Prod.snd ++ cs.map Prod.snd →
      Q () ql') : Gives (dupLoop pf orig (cs.map Prod.fst)) Q ql := by
  induction cs generalizing ql ms with
  | nil => exact hQ ql ms h (by simp)
  | cons n cs ih =>
      obtain ⟨hholds, hraw, hcount, hshort, hfull⟩ := horig n List.mem_cons_self
      have hless := total_lt h.short h.linkable
      rw [List.length_cons] at hmany
      rw [List.map_cons]
      unfold Gives dupLoop
      rw [yields_bind]
      refine gives_dupNode hholds hraw fun node hnode hsame => ?_
      have hmore : toULong ((ql.count : Int) + (node.count : Nat)) = total ms + n.2.length := by
        rw [hsame, hcount, h.count, ← Nat.cast_add, toULong_eq (by omega)]
      rw [yields_bind]
      show yields _ _ _ { ql with count := toULong ((ql.count : Int) + (node.count : Nat)) }
      rw [hmore, yields_bind, yields_get, yields_bind]
      refine gives_appendNode (h.loose.woven.recount (by omega)) hnode (hsame.trans hcount) hshort
        (by omega) fun ql₁ h₁ hcount₁ _ => ?_
      have hstores₁ : Stores pf ql₁ (ms ++ [(ql.fresh, n.2)]) := by
        refine (h₁.loose (hcount₁.trans ?_)).stores ?_
        · rw [total_concat]
        · refine forall_middle (fun m hm => h.full m ?_) hfull
          rwa [List.append_nil] at hm
      refine ih (fun m hm => horig m (List.mem_cons_of_mem _ hm)) hstores₁ ?_ fun ql' ms' h' hms => ?_
      · rw [List.length_append, List.length_singleton]
        omega
      · refine hQ ql' ms' h' (hms.trans ?_)
        simp

/-- **Copying.**  The copy of a list without compressed nodes has the same entries in its nodes,
and the list is as it was. -/
theorem quicklistDup_copies (pf : Platform) (h : Stores pf ql ns) (hraw : ∀ p ∈ ql.nodes, ql.Raw p) :
    Gives (quicklistDup pf) (fun copy ql' => ql' = ql ∧
      ∃ ms, Stores pf copy ms ∧ ms.map Prod.snd = ns.map Prod.snd) ql := by
  obtain ⟨ms, hms, -, -, hnil⟩ := quicklistNew_isDeque pf ql.fill ql.compress
  have hempty : ms = [] := by
    cases ms with
    | nil => rfl
    | cons n ms =>
        have hne := hms.full n List.mem_cons_self
        rw [elements_cons] at hnil
        have hcontents := (List.append_eq_nil_iff.mp hnil).1
        exact absurd (List.map_eq_nil_iff.mp hcontents) hne
  subst hempty
  unfold Gives quicklistDup
  rw [yields_bind, yields_get, yields_bind, yields_runOn, h.nodes]
  refine gives_dupLoop (fun n hn => ⟨h.holds n hn, hraw n.1 (h.mem hn), h.counted n hn, h.short n hn,
    h.full n hn⟩) hms ?_ fun copy ms' h' hsame => ?_
  · rw [List.length_nil, Nat.zero_add]
    exact h.linkable
  · exact ⟨rfl, ms', h', by rw [hsame]; rfl⟩

/-- Four entries and two. -/
theorem quicklistDup_copies_six :
    Gives (quicklistDup plainPlatform) (fun copy ql' => ql' = sixLetters ∧ ∃ ms,
      Stores plainPlatform copy ms ∧ ms.map Prod.snd = [letters 4, letters 2]) sixLetters :=
  quicklistDup_copies plainPlatform (sixLetters_stores _) fun _ _ => trivial

end Quicklist

end RedisCore
