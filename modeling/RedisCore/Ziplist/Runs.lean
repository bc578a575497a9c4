/-
# `RedisCore.Ziplist.Runs` — a ziplist is a list of strings

A run edits a ziplist with `ziplistPush`, `ziplistInsert`, `ziplistDelete` and
`ziplistDeleteRange`.  The entries are edited alike, and what they stand for is the list of
strings with the same edits, as long as the entries take less than 2^32 bytes: the header has
no room for more, and nothing checks it.
-/
import RedisCore.Ziplist.Reads

namespace RedisCore

namespace Ziplist

open CInt LittleEndian Splice

/-! ## Reading a whole ziplist -/

/-- The string that a value is read as. -/
def Value.bytes : Value → Bytes
  | .str s => s
  | .int v => ll2str v

/-- The strings from an entry on, read one after the other. -/
def readAll (zl : Bytes) : Nat → Nat → Option (List Bytes)
  | 0, _ => none
  | fuel + 1, p => do
      match ← ziplistGet zl (some p) with
      | none => return []
      | some v => return v.bytes :: (← readAll zl fuel (p + (← zipRawEntryLength zl p)))

/-- The decoded sequence. -/
def decoded (zl : Bytes) : Option (List Bytes) := readAll zl (zl.length + 1) ZIPLIST_HEADER_SIZE

/-- The bytes are a ziplist. -/
def WellFormed (zl : Bytes) : Prop := ∃ es, Represents zl es

variable {zl : Bytes} {es as bs : List Entry} {e : Entry}

theorem readAll_spec : ∀ (bs as : List Entry) (fuel : Nat), Represents zl (as ++ bs) →
    bs.length < fuel → readAll zl fuel (10 + size as) = some (contents bs) := by
  intro bs
  induction bs with
  | nil =>
      intro as fuel h hfuel
      obtain ⟨fuel, rfl⟩ : ∃ n, fuel = n + 1 := ⟨fuel - 1, by simp at hfuel; omega⟩
      rw [List.append_nil] at h
      have hget : ziplistGet zl (some (10 + size as)) = some none := by
        unfold ziplistGet
        dsimp only
        rw [h.byteAt_end, some_bind, if_pos rfl]
        rfl
      rw [readAll, hget]
      rfl
  | cons e bs ih =>
      intro as fuel h hfuel
      obtain ⟨fuel, rfl⟩ : ∃ n, fuel = n + 1 := ⟨fuel - 1, by omega⟩
      have hrest := ih (as ++ [e]) fuel (by simpa using h) (by simp at hfuel; omega)
      rw [size_append, size_cons, size_nil, Nat.add_zero, ← Nat.add_assoc] at hrest
      rw [readAll, ziplistGet_spec h, some_bind]
      dsimp only
      rw [h.zipRawEntryLength, some_bind, hrest, some_bind]
      rfl

theorem decoded_spec (h : Represents zl es) : decoded zl = some (contents es) :=
  @readAll_spec zl es [] (zl.length + 1) h (by
    have := h.length
    have := @length_le_size es
    omega)

/-! ## Edits -/

/-- Entries with one for a string put in between. -/
def insertEntry (as : List Entry) (s : Bytes) (h : s.length < 2 ^ 32) (bs : List Entry) : List Entry :=
  let new := entryOf (decide (254 ≤ lastLen 0 as)) s h
  as ++ new :: follow (insertedWidth new.rawLen) bs

/-- Entries with `num` taken out from the position `k` on. -/
def deleteEntries (es : List Entry) (k num : Nat) : List Entry :=
  if num = 0 then es
  else es.take k ++ follow (deletedWidth (lastLen 0 (es.take k))) (es.drop (k + num))

@[simp] theorem contents_append : contents (as ++ bs) = contents as ++ contents bs :=
  List.map_append

@[simp] theorem contents_cons : contents (e :: es) = e.bytes :: contents es := rfl

@[simp] theorem contents_nil : contents [] = [] := rfl

@[simp] theorem length_contents : (contents es).length = es.length := List.length_map _

theorem contents_insertEntry (s : Bytes) (h : s.length < 2 ^ 32) :
    contents (insertEntry as s h bs) = contents as ++ s :: contents bs := by
  unfold insertEntry
  rw [contents_append, contents_cons, contents_follow, bytes_entryOf]

theorem contents_deleteEntries (k num : Nat) :
    contents (deleteEntries es k num) = (contents es).take k ++ (contents es).drop (k + num) := by
  unfold deleteEntries
  split
  · next hzero =>
      rw [hzero, Nat.add_zero, List.take_append_drop]
  · rw [contents_append, contents_follow]
    unfold contents
    rw [List.map_take, List.map_drop]

/-- `ziplistInsert` before the entries `bs`. -/
theorem ziplistInsert_spec (mem : Nat → UInt8) {s : Bytes} (hs : s.length < 2 ^ 32)
    (h : Represents zl (as ++ bs)) (hsmall : 11 + size (insertEntry as s hs bs) < 2 ^ 32) :
    ∃ zl', ziplistInsert mem zl (10 + size as) s = some zl' ∧
      Represents zl' (insertEntry as s hs bs) :=
  ziplistInsertAt_spec mem h (wide_entryOf _ s hs)
    (by rw [body_entryOf, insertedPayload_self]) (Nat.le_refl _) hsmall

/-- `ziplistDelete` and the others on entries from a position on. -/
theorem deleteEntries_spec (mem : Nat → UInt8) {k num : Nat} (h : Represents zl es) (hk : k < es.length)
    (hsmall : 11 + size (deleteEntries es k num) < 2 ^ 32) :
    ∃ zl', ziplistDeleteAt mem zl (10 + size (es.take k)) num = some zl' ∧
      Represents zl' (deleteEntries es k num) := by
  obtain ⟨as, e, bs, heq, hlen, htake⟩ := exists_split hk
  unfold deleteEntries at hsmall ⊢
  rw [htake] at hsmall ⊢
  by_cases hzero : num = 0
  · refine ⟨zl, ?_, by rwa [if_pos hzero]⟩
    unfold ziplistDeleteAt
    rw [heq] at h
    rw [h.zipEntry, some_bind, hzero]
    dsimp only
    rw [skipEntries, some_bind]
    dsimp only
    rw [Nat.sub_self, if_neg (Nat.lt_irrefl 0)]
    rfl
  · have hdrop : es.drop (k + num) = (e :: bs).drop num := by
      rw [← List.drop_drop, heq, ← hlen, List.drop_left]
    rw [if_neg hzero, hdrop] at hsmall
    rw [if_neg hzero, hdrop]
    have hsome : (e :: bs).take num ≠ [] := by
      obtain ⟨n, rfl⟩ := Nat.exists_eq_succ_of_ne_zero hzero
      exact List.cons_ne_nil _ _
    exact ziplistDeleteAt_spec mem (by rwa [List.take_append_drop, ← heq]) hsome
      (by rw [List.take_append_drop]) hsmall

theorem length_deleteEntries (k num : Nat) :
    (deleteEntries es k num).length = min k es.length + (es.length - (k + num)) := by
  rw [← length_contents, contents_deleteEntries, List.length_append, List.length_take,
    List.length_drop, length_contents]

/-- All numbers that reach the end mean the same. -/
theorem deleteEntries_past {k num num' : Nat} (hk : k < es.length) (h : es.length ≤ k + num)
    (h' : es.length ≤ k + num') : deleteEntries es k num = deleteEntries es k num' := by
  unfold deleteEntries
  rw [if_neg (by omega), if_neg (by omega), List.drop_eq_nil_of_le h, List.drop_eq_nil_of_le h']

/-- Without the first entries the list takes no more: the field of the next one gets short. -/
theorem size_deleteEntries_first (h : Fits 0 es) (num : Nat) :
    size (deleteEntries es 0 num) ≤ size es := by
  unfold deleteEntries
  split
  · exact Nat.le_refl _
  · rw [List.take_zero, List.nil_append, Nat.zero_add]
    have hsplit := List.take_append_drop num es
    have hsize : size (es.take num) + size (es.drop num) = size es := by rw [← size_append, hsplit]
    rw [← hsplit] at h
    have hdrop := (fits_append.mp h).2
    rcases hrest : es.drop num with _ | ⟨e, rest⟩
    · exact Nat.zero_le _
    · rw [hrest] at hdrop hsize
      have hnarrow : (e.withWide false).rawLen ≤ e.rawLen := by
        rw [@Entry.rawLen_narrow (e.withWide false) rfl]
        show 1 + e.body.length ≤ e.prevSize + e.body.length
        unfold Entry.prevSize
        split <;> omega
      show size (e.withWide false :: settle (e.withWide false).rawLen rest) ≤ _
      rw [settle_of_fits (hdrop.2.mono hnarrow)]
      rw [size_cons] at hsize ⊢
      omega

/-- Without the last entries it takes no more either. -/
theorem size_deleteEntries_last {k num : Nat} (hend : es.length ≤ k + num) :
    size (deleteEntries es k num) ≤ size es := by
  unfold deleteEntries
  split
  · exact Nat.le_refl _
  · have hsize : size (es.take k) + size (es.drop k) = size es := by
      rw [← size_append, List.take_append_drop]
    rw [List.drop_eq_nil_of_le hend, size_append]
    show size (es.take k) + 0 ≤ size es
    omega

/-- Entries with up to `num` taken out from the one on that an index means. -/
def deleteRange (es : List Entry) (index : Int) (num : Nat) : List Entry :=
  match position es.length index with
  | none => es
  | some k => deleteEntries es k num

/-- `ziplistDeleteRange`. -/
theorem ziplistDeleteRange_spec (mem : Nat → UInt8) {index : Int} {num : Nat} (h : Represents zl es)
    (hlow : -(2 ^ 31) ≤ index) (hhigh : index < 2 ^ 31)
    (hsmall : 11 + size (deleteRange es index num) < 2 ^ 32) :
    ∃ zl', ziplistDeleteRange mem zl index num = some zl' ∧
      Represents zl' (deleteRange es index num) := by
  unfold deleteRange at hsmall ⊢
  unfold ziplistDeleteRange
  rw [ziplistIndex_spec h hlow hhigh, some_bind]
  rcases hpos : position es.length index with _ | k
  · exact ⟨zl, rfl, h⟩
  · rw [hpos] at hsmall
    exact deleteEntries_spec mem h (position_lt hpos) hsmall

/-- What a run does next. -/
inductive Edit
  | push (s : Bytes) (h : s.length < 2 ^ 32) (whr : Where)
  | insert (k : Nat) (s : Bytes) (h : s.length < 2 ^ 32)
  | delete (k : Nat)
  | deleteRange (index : Int) (num : Nat)

namespace Edit

/-- The edit on the bytes; a position is the offset that so many entries end at. -/
def run (mem : Nat → UInt8) (zl : Bytes) : Edit → Option Bytes
  | .push s _ whr => ziplistPush mem zl s whr
  | .insert k s _ => do
      let (p, _) ← skipEntries zl k ZIPLIST_HEADER_SIZE
      ziplistInsert mem zl p s
  | .delete k => do
      let (p, _) ← skipEntries zl k ZIPLIST_HEADER_SIZE
      ziplistDelete mem zl p
  | .deleteRange index num => ziplistDeleteRange mem zl index num

/-- The edit on a list of strings. -/
def apply (l : List Bytes) : Edit → List Bytes
  | .push s _ .HEAD => s :: l
  | .push s _ .TAIL => l ++ [s]
  | .insert k s _ => l.take k ++ s :: l.drop k
  | .delete k => l.eraseIdx k
  | .deleteRange index num =>
      match position l.length index with
      | none => l
      | some k => l.take k ++ l.drop (k + num)

/-- The edit on the entries. -/
def entries (es : List Entry) : Edit → List Entry
  | .push s h .HEAD => insertEntry [] s h es
  | .push s h .TAIL => insertEntry es s h []
  | .insert k s h => insertEntry (es.take k) s h (es.drop k)
  | .delete k => deleteEntries es k 1
  | .deleteRange index num => Ziplist.deleteRange es index num

/-- The positions are those of entries, and the integers are in the range of their types. -/
def Valid (n : Nat) : Edit → Prop
  | .push _ _ _ => True
  | .insert k _ _ => k ≤ n
  | .delete k => k < n
  | .deleteRange index _ => -(2 ^ 31) ≤ index ∧ index < 2 ^ 31

end Edit

/-- The entries stand for the list with the edit. -/
theorem contents_entries (op : Edit) : contents (op.entries es) = op.apply (contents es) := by
  cases op with
  | push s h whr =>
      cases whr with
      | HEAD => exact contents_insertEntry s h
      | TAIL => exact contents_insertEntry s h
  | insert k s h =>
      show contents (insertEntry _ _ _ _) = _
      rw [contents_insertEntry]
      unfold contents
      rw [List.map_take, List.map_drop]
      rfl
  | delete k =>
      show contents (deleteEntries _ _ _) = (contents es).eraseIdx k
      rw [contents_deleteEntries, List.eraseIdx_eq_take_drop_succ]
  | deleteRange index num =>
      show contents (Ziplist.deleteRange es index num) = match position (contents es).length index with
        | none => contents es
        | some k => (contents es).take k ++ (contents es).drop (k + num)
      unfold Ziplist.deleteRange
      rw [length_contents]
      rcases position es.length index with _ | k
      · rfl
      · exact contents_deleteEntries k num

theorem offset_spec (h : Represents zl es) (k : Nat) :
    ∃ n, skipEntries zl k ZIPLIST_HEADER_SIZE = some (10 + size (es.take k), n) := by
  obtain ⟨⟨count, hzl, -⟩, hfits, hsmall⟩ := h
  have hskip := skipEntries_spec k (header (11 + size es) (tailOffset es) count) 0 es hfits (by omega)
  rw [length_header] at hskip
  exact ⟨_, by rw [hzl]; exact hskip⟩

/-- One edit. -/
theorem Edit.run_spec (mem : Nat → UInt8) {op : Edit} (h : Represents zl es) (hop : op.Valid es.length)
    (hsmall : 11 + size (op.entries es) < 2 ^ 32) :
    ∃ zl', op.run mem zl = some zl' ∧ Represents zl' (op.entries es) := by
  cases op with
  | push s hs whr =>
      cases whr with
      | HEAD => exact @ziplistInsert_spec zl [] es mem s hs h hsmall
      | TAIL =>
          have hend : ziplistEntryEnd zl = some (10 + size es) := by
            unfold ziplistEntryEnd
            rw [h.zlBytes, some_bind]
            exact sizeT_eq (by omega)
          show ∃ zl', (ziplistEntryEnd zl >>= fun p => ziplistInsertAt mem zl p s s) = some zl' ∧ _
          rw [hend, some_bind]
          exact @ziplistInsert_spec zl es [] mem s hs (by rwa [List.append_nil]) hsmall
  | insert k s hs =>
      obtain ⟨n, hskip⟩ := offset_spec h k
      unfold Edit.run
      dsimp only
      rw [hskip, some_bind]
      exact ziplistInsert_spec mem hs (by rwa [List.take_append_drop]) hsmall
  | delete k =>
      obtain ⟨n, hskip⟩ := offset_spec h k
      unfold Edit.run
      dsimp only
      rw [hskip, some_bind]
      exact deleteEntries_spec mem h hop hsmall
  | deleteRange index num =>
      exact ziplistDeleteRange_spec mem h hop.1 hop.2 hsmall

/-! ## Runs -/

/-- A run: the edits, and what the memory holds that each of them allocates. -/
def runEdits (zl : Bytes) : List ((Nat → UInt8) × Edit) → Option Bytes
  | [] => some zl
  | (mem, op) :: ops => do runEdits (← op.run mem zl) ops

/-- The edits one after the other on a list of strings. -/
def applyEdits (l : List Bytes) (ops : List ((Nat → UInt8) × Edit)) : List Bytes :=
  ops.foldl (fun l op => op.2.apply l) l

/-- The edits one after the other on the entries. -/
def editEntries (es : List Entry) (ops : List ((Nat → UInt8) × Edit)) : List Entry :=
  ops.foldl (fun es op => op.2.entries es) es

/-- The positions of a run are those of entries. -/
def ValidRun (l : List Bytes) : List ((Nat → UInt8) × Edit) → Prop
  | [] => True
  | (_, op) :: ops => op.Valid l.length ∧ ValidRun (op.apply l) ops

/-- No list of a run would take 2^32 bytes. -/
def SmallRun (es : List Entry) : List ((Nat → UInt8) × Edit) → Prop
  | [] => True
  | (_, op) :: ops => 11 + size (op.entries es) < 2 ^ 32 ∧ SmallRun (op.entries es) ops

theorem runEdits_spec : ∀ (ops : List ((Nat → UInt8) × Edit)) (zl : Bytes) (es : List Entry),
    Represents zl es → ValidRun (contents es) ops → SmallRun es ops →
    ∃ zl', runEdits zl ops = some zl' ∧ Represents zl' (editEntries es ops) ∧
      contents (editEntries es ops) = applyEdits (contents es) ops := by
  intro ops
  induction ops with
  | nil =>
      intro zl es h _ _
      exact ⟨zl, rfl, h, rfl⟩
  | cons op ops ih =>
      intro zl es h hvalid hsmall
      obtain ⟨mem, op⟩ := op
      rw [ValidRun, length_contents, ← contents_entries] at hvalid
      obtain ⟨zl₁, hrun, h₁⟩ := op.run_spec mem h hvalid.1 hsmall.1
      obtain ⟨zl', hruns, h', hcontents⟩ := ih zl₁ (op.entries es) h₁ hvalid.2 hsmall.2
      refine ⟨zl', ?_, h', ?_⟩
      · rw [runEdits, hrun]
        exact hruns
      · rw [contents_entries] at hcontents
        exact hcontents

/-- A well-formed ziplist is a list of strings: each run of edits on the bytes leaves a
well-formed ziplist, with the same edits on the strings, and its length. -/
theorem ziplist_refines_list {l : List Bytes} {ops : List ((Nat → UInt8) × Edit)}
    (h : Represents zl es) (hl : decoded zl = some l) (hvalid : ValidRun l ops)
    (hsmall : SmallRun es ops) :
    ∃ zl', runEdits zl ops = some zl' ∧ WellFormed zl' ∧ decoded zl' = some (applyEdits l ops) ∧
      ∃ zl'', ziplistLen zl' = some ((applyEdits l ops).length, zl'') ∧ WellFormed zl'' ∧
        decoded zl'' = some (applyEdits l ops) := by
  rw [decoded_spec h] at hl
  obtain rfl := Option.some.inj hl
  obtain ⟨zl', hrun, h', hcontents⟩ := runEdits_spec ops zl es h hvalid hsmall
  obtain ⟨zl'', hlen, h''⟩ := ziplistLen_spec h'
  rw [← hcontents]
  refine ⟨zl', hrun, ⟨_, h'⟩, decoded_spec h', zl'', ?_, ⟨_, h''⟩, decoded_spec h''⟩
  rw [length_contents]
  exact hlen

theorem ziplistNew_represents : Represents ziplistNew [] := by
  refine ⟨⟨0, ?_, .inr ⟨by decide, rfl⟩⟩, trivial, by decide⟩
  unfold ziplistNew layout header tailOffset
  rw [encodeEntries_nil, List.nil_append, List.append_assoc (encodeNat 4 _)]
  rfl

/-- Some edits of an empty list. -/
def someEdits : List ((Nat → UInt8) × Edit) :=
  [(fun _ => 0, .push [49] (by decide) .TAIL), (fun _ => 7, .push [97, 98] (by decide) .HEAD),
    (fun _ => 0, .insert 1 [99] (by decide)), (fun _ => 1, .deleteRange (-1) 2)]

theorem ziplist_refines_list_some :
    (Represents ziplistNew [] ∧ decoded ziplistNew = some [] ∧ ValidRun [] someEdits ∧
      SmallRun [] someEdits) ∧
    ∃ zl', runEdits ziplistNew someEdits = some zl' ∧ WellFormed zl' ∧
      decoded zl' = some (applyEdits [] someEdits) ∧
      ∃ zl'', ziplistLen zl' = some ((applyEdits [] someEdits).length, zl'') ∧ WellFormed zl'' ∧
        decoded zl'' = some (applyEdits [] someEdits) := by
  have hvalid : ValidRun [] someEdits :=
    ⟨trivial, trivial, (by decide : 1 ≤ 2), ⟨by decide, by decide⟩, trivial⟩
  have hsmall : SmallRun [] someEdits :=
    ⟨by decide +kernel, by decide +kernel, by decide +kernel, by decide +kernel, trivial⟩
  have hl := decoded_spec ziplistNew_represents
  exact ⟨⟨ziplistNew_represents, hl, hvalid, hsmall⟩,
    ziplist_refines_list ziplistNew_represents hl hvalid hsmall⟩

/-! ## A list that is too large -/

theorem length_ll2str_lt (v : Int) : (ll2str v).length < 32 := by
  have hfits : ∀ (n : Nat) (b₁ b₂ : Bytes),
      (if n ≥ (List.replicate 32 (0 : UInt8)).length then (b₁, 0) else (b₂, n)).2 < 32 := by
    intro n b₁ b₂
    rw [List.length_replicate]
    split
    · exact Nat.succ_pos 31
    · next hlt => exact Nat.lt_of_not_le hlt
  have hlen : (ll2string (List.replicate 32 0) v).2 < 32 := hfits _ _ _
  exact Nat.lt_of_le_of_lt (List.length_take_le _ _) hlen

/-- A string that is too long for a number takes its bytes and one more. -/
theorem Entry.length_bytes (e : Entry) (h : 32 ≤ e.bytes.length) : e.bytes.length < e.rawLen := by
  have hraw : e.rawLen = e.prevSize + e.body.length := rfl
  have hpos := e.lensize_pos
  have hwhole := e.whole
  unfold Entry.bytes Entry.value at h ⊢
  by_cases hstr : zipIsStr e.encoding
  · rw [if_pos hstr] at h ⊢
    dsimp only at h ⊢
    rw [List.length_drop]
    omega
  · rw [if_neg hstr] at h
    have := length_ll2str_lt ((zipLoadInteger e.body e.lensize e.encoding).getD 0)
    dsimp only at h
    omega

/-- A long string takes its bytes and six more. -/
theorem Entry.length_bytes_long (e : Entry) (h : 16384 ≤ e.bytes.length) : e.bytes.length + 6 ≤ e.rawLen := by
  have hraw : e.rawLen = e.prevSize + e.body.length := rfl
  have hprev : 1 ≤ e.prevSize := by
    unfold Entry.prevSize
    split <;> decide
  have hwhole := e.whole
  unfold Entry.bytes Entry.value at h ⊢
  by_cases hstr : zipIsStr e.encoding
  · rw [if_pos hstr] at h ⊢
    dsimp only at h ⊢
    rw [List.length_drop] at h ⊢
    have hfive := lensize_long e.decodes (by omega)
    omega
  · rw [if_neg hstr] at h
    have := length_ll2str_lt ((zipLoadInteger e.body e.lensize e.encoding).getD 0)
    dsimp only at h
    omega

/-- A string of almost 2^32 bytes. -/
def longString : Bytes := List.replicate 4294967276 0

theorem length_longString : longString.length = 4294967276 := List.length_replicate

theorem longString_lt : longString.length < 2 ^ 32 := by
  rw [length_longString]
  decide

/-- The ziplist of that string. -/
def longList : Bytes := layout 1 [strEntry false longString longString_lt]

theorem rawLen_strEntry (wide : Bool) (s : Bytes) (h : s.length < 2 ^ 32) :
    (strEntry wide s h).rawLen =
      (if wide then 5 else 1) + ((zipEncodeLength 0 s.length).length + s.length) := by
  unfold Entry.rawLen Entry.prevSize
  rw [← List.length_append]
  rfl

theorem longList_represents : Represents longList [strEntry false longString longString_lt] := by
  refine ⟨⟨1, rfl, .inr ⟨by decide, rfl⟩⟩, ⟨fun _ => by decide, trivial⟩, ?_⟩
  have hlen : (zipEncodeLength 0 longString.length).length = 5 := by
    rw [length_longString]
    rfl
  rw [size_cons, size_nil, rawLen_strEntry, hlen, length_longString]
  decide

theorem bytes_strEntry (wide : Bool) (s : Bytes) (h : s.length < 2 ^ 32) :
    (strEntry wide s h).bytes = s := by
  unfold Entry.bytes Entry.value
  rw [if_pos (show zipIsStr (strEntry wide s h).encoding from zipIsStr_strEncoding _)]
  exact List.drop_left

/-- No ziplist holds two strings of 2^32 bytes together. -/
theorem not_represents_pair {zl s t : Bytes} (hs : 32 ≤ s.length) (ht : 32 ≤ t.length)
    (hlong : 2 ^ 32 ≤ 13 + s.length + t.length) : ∀ es, contents es = [s, t] → ¬ Represents zl es := by
  intro es hcontents h
  have hlen := congrArg List.length hcontents
  rw [length_contents] at hlen
  rcases es with _ | ⟨e, _ | ⟨f, es⟩⟩
  · cases hlen
  · cases hlen
  · rw [contents_cons, contents_cons] at hcontents
    obtain ⟨he, hrest⟩ := List.cons.inj hcontents
    obtain ⟨hf, -⟩ := List.cons.inj hrest
    have hle := e.length_bytes (by rw [he]; exact hs)
    have hlf := f.length_bytes (by rw [hf]; exact ht)
    have hsmall := h.small
    rw [he] at hle
    rw [hf] at hlf
    rw [size_cons, size_cons] at hsmall
    omega

/-- A string more, and the header has no room for the number of bytes. -/
theorem longList_not_refined :
    WellFormed longList ∧ decoded longList = some [longString] ∧ ∀ mem, ¬ ∃ zl',
      runEdits longList [(mem, .push (List.replicate 40 0) (by decide) .TAIL)] = some zl' ∧
        WellFormed zl' ∧ decoded zl' = some [longString, List.replicate 40 0] := by
  refine ⟨⟨_, longList_represents⟩, ?_, ?_⟩
  · rw [decoded_spec longList_represents, contents_cons, bytes_strEntry]
    rfl
  rintro mem ⟨zl', -, ⟨es, h⟩, hdecoded⟩
  rw [decoded_spec h] at hdecoded
  refine not_represents_pair ?_ ?_ ?_ es (Option.some.inj hdecoded) h
  · rw [length_longString]
    decide
  · decide
  · rw [length_longString, List.length_replicate]
    omega

end Ziplist

end RedisCore
