/-
# `RedisCore.Ziplist.Pushes` — inserting where there is room

A list that is far from 2^32 bytes has room for one more string, however the fields in front of
the other entries grow.  The string may lie in the list itself; then it is what is found in its
place after the list was moved, unless it is kept as an integer, which is known before.
-/
import RedisCore.Ziplist.Runs

namespace RedisCore

namespace Ziplist

open CInt

variable {es fs : List Entry} {new : Entry} {s copied zl : Bytes} {whr : Where}

/-- What a string is when it is copied. -/
def arrived (s copied : Bytes) : Bytes :=
  if (zipTryEncoding s).isSome then s else copied.take s.length

theorem arrived_self (s : Bytes) : arrived s s = s := by
  unfold arrived
  rw [List.take_length]
  split <;> rfl

theorem arrived_str (h : zipTryEncoding s = none) : arrived s copied = copied.take s.length := by
  unfold arrived
  rw [h]
  rfl

theorem arrived_int {r : Int × Nat} (h : zipTryEncoding s = some r) : arrived s copied = s := by
  unfold arrived
  rw [h]
  rfl

theorem length_arrived (h : s.length ≤ copied.length) : (arrived s copied).length = s.length := by
  unfold arrived
  split
  · rfl
  · rw [List.length_take, Nat.min_eq_left h]

/-- The entry of a string that is copied late. -/
theorem exists_lateEntry (wide : Bool) (hs : s.length < 2 ^ 32) (hcopied : s.length ≤ copied.length) :
    ∃ new : Entry, new.wide = wide ∧
      new.body = zipEncodeLength (encodingOf s) s.length ++ insertedPayload s copied ∧
      new.bytes = arrived s copied ∧ new.body.length ≤ 5 + max 8 s.length := by
  unfold encodingOf insertedPayload arrived
  rcases htry : zipTryEncoding s with _ | ⟨v, enc⟩
  · have hlen : (copied.take s.length).length = s.length := by
      rw [List.length_take, Nat.min_eq_left hcopied]
    have hbody : (zipEncodeLength 0 s.length).length ≤ 5 := by
      unfold zipEncodeLength
      split
      · split
        · exact Nat.le_add_left 1 4
        · split
          · exact Nat.le_add_left 2 3
          · exact Nat.le_refl 5
      · exact Nat.le_add_left 1 4
    refine ⟨strEntry wide (copied.take s.length) (by rw [hlen]; exact hs), rfl, ?_, bytes_strEntry _ _ _, ?_⟩
    · show zipEncodeLength 0 _ ++ _ = zipEncodeLength 0 _ ++ _
      rw [hlen]
    · show (zipEncodeLength 0 _ ++ _).length ≤ _
      rw [List.length_append, hlen]
      omega
  · have hsaves := (zipTryEncoding_saves htry).2
    have hentry : entryOf wide s hs = intEntry wide hsaves := by
      rcases entryOf_cases wide s hs with ⟨v', enc', hs', htry', -, heq⟩ | ⟨hnone, -⟩
      · rw [htry] at htry'
        cases htry'
        exact heq
      · rw [htry] at hnone
        cases hnone
    refine ⟨intEntry wide hsaves, rfl, ?_, ?_, ?_⟩
    · dsimp only [Option.map_some, Option.getD_some]
      unfold zipEncodeLength
      rw [if_neg hsaves.not_str]
      rfl
    · rw [← hentry]
      exact bytes_entryOf wide s hs
    · show (UInt8.ofNat enc :: zipSaveInteger v enc).length ≤ _
      rw [List.length_cons, hsaves.length]
      have hsize : zipIntSize enc ≤ 8 := by
        cases hsaves with
        | imm h₁ h₂ =>
            obtain ⟨n, rfl⟩ := Int.eq_ofNat_of_zero_le h₁
            have hn : n ≤ 12 := by omega
            interval_cases n <;> decide
        | _ => decide
      omega

theorem roomy_le : roomy es ≤ 3 * size es := by
  induction es with
  | nil => exact Nat.le_refl 0
  | cons e es ih =>
      have hlen := e.lensize_pos
      have hwhole := e.whole
      rw [roomy_cons, size_cons]
      unfold Entry.rawLen Entry.prevSize
      split <;> omega

theorem size_inserted_le :
    size (es ++ new :: follow (insertedWidth new.rawLen) fs) ≤ roomy (es ++ fs) + new.rawLen := by
  have hleft := @size_le_roomy es
  have hright := @size_le_roomy (follow (insertedWidth new.rawLen) fs)
  rw [roomy_follow] at hright
  rw [size_append, size_cons, roomy_append]
  omega

/-- Only entries of 250 bytes and more make the next one grow. -/
theorem size_grown_le {e e' : Entry} (hgrow : e'.rawLen ≤ e.rawLen + 4)
    (hrest : 254 ≤ e'.rawLen → 62 * size (settle e'.rawLen es) ≤ 63 * size es + 248) :
    62 * size (e' :: settle e'.rawLen es) ≤ 63 * size (e :: es) + 248 := by
  rw [size_cons, size_cons]
  rcases Nat.lt_or_ge e'.rawLen 254 with hlt | hge
  · have hsame : settle e'.rawLen es = es := by
      cases es with
      | nil => rfl
      | cons f es => rw [settle, if_neg (by omega)]
    rw [hsame]
    omega
  · have hle := hrest hge
    omega

theorem size_settle_le {prev : Nat} : 62 * size (settle prev es) ≤ 63 * size es + 248 := by
  induction es generalizing prev with
  | nil => exact Nat.zero_le _
  | cons e es ih =>
      unfold settle
      split
      · next hgrow =>
          refine size_grown_le ?_ fun _ => ih
          rw [Entry.rawLen_widen, Entry.rawLen_narrow hgrow.1]
          omega
      · omega

theorem size_follow_le {w : Entry → Bool} : 62 * size (follow w es) ≤ 63 * size es + 248 := by
  cases es with
  | nil => exact Nat.zero_le _
  | cons e es =>
      refine size_grown_le ?_ fun _ => size_settle_le
      unfold Entry.rawLen Entry.prevSize
      split <;> split <;> simp <;> omega

/-- The entry of a string. -/
theorem rawLen_entryOf_le (wide : Bool) (hs : s.length < 2 ^ 32) :
    (entryOf wide s hs).rawLen ≤ 10 + max 8 s.length := by
  obtain ⟨new, hwide, hbody, -, hlen⟩ := exists_lateEntry wide hs (Nat.le_refl _)
  have hsame : (entryOf wide s hs).body = new.body := by
    rw [hbody, body_entryOf, insertedPayload_self]
  have hraw : (entryOf wide s hs).rawLen = (entryOf wide s hs).prevSize + new.body.length := by
    rw [← hsame]
    rfl
  rw [hraw]
  unfold Entry.prevSize
  split <;> omega

/-- `__ziplistInsert` where there is room. -/
theorem ziplistInsertAt_room (mem : Nat → UInt8) (h : Represents zl (es ++ fs)) (hs : s.length < 2 ^ 32)
    (hcopied : s.length ≤ copied.length) (hroom : 21 + roomy (es ++ fs) + max 8 s.length < 2 ^ 32) :
    ∃ zl' new, ziplistInsertAt mem zl (10 + size es) s copied = some zl' ∧
      Represents zl' (es ++ new :: follow (insertedWidth new.rawLen) fs) ∧
      new.bytes = arrived s copied ∧ new.rawLen ≤ 10 + max 8 s.length ∧
      (es = [] → new.rawLen ≤ 6 + max 8 s.length) := by
  obtain ⟨new, hwide, hbody, hbytes, hlen⟩ :=
    @exists_lateEntry s copied (decide (254 ≤ lastLen 0 es)) hs hcopied
  have hraw : new.rawLen ≤ 10 + max 8 s.length := by
    unfold Entry.rawLen Entry.prevSize
    split <;> omega
  have hsize := @size_inserted_le es fs new
  obtain ⟨zl', hinsert, hrep⟩ := ziplistInsertAt_spec mem h hwide hbody hcopied (by omega)
  refine ⟨zl', new, hinsert, hrep, hbytes, hraw, fun hnil => ?_⟩
  rw [hnil] at hwide
  rw [Entry.rawLen_narrow hwide]
  omega

/-- Entries with one more at an end. -/
def addEntry (es : List Entry) (new : Entry) : Where → List Entry
  | .HEAD => new :: follow (insertedWidth new.rawLen) es
  | .TAIL => es ++ [new]

/-- A list with an element more at an end. -/
def addTo {α : Type} (l : List α) (x : α) : Where → List α
  | .HEAD => x :: l
  | .TAIL => l ++ [x]

theorem contents_addEntry : contents (addEntry es new whr) = addTo (contents es) new.bytes whr := by
  cases whr with
  | HEAD =>
      show contents (new :: follow _ es) = _
      rw [contents_cons, contents_follow]
      rfl
  | TAIL => exact contents_append

theorem length_addEntry : (addEntry es new whr).length = es.length + 1 := by
  cases whr with
  | HEAD => exact congrArg (· + 1) length_follow
  | TAIL => exact List.length_append

theorem size_addEntry_le : size (addEntry es new whr) ≤ roomy es + new.rawLen := by
  cases whr with
  | HEAD => exact @size_inserted_le [] es new
  | TAIL =>
      have hsize := @size_inserted_le es [] new
      rwa [List.append_nil] at hsize

/-- `ziplistPush` where there is room. -/
theorem ziplistPushCopying_room (mem : Nat → UInt8) (whr : Where) (h : Represents zl es)
    (hs : s.length < 2 ^ 32) (hcopied : s.length ≤ copied.length)
    (hroom : 21 + roomy es + max 8 s.length < 2 ^ 32) :
    ∃ zl' new, ziplistPushCopying mem zl s copied whr = some zl' ∧
      Represents zl' (addEntry es new whr) ∧ new.bytes = arrived s copied ∧
      new.rawLen ≤ 10 + max 8 s.length ∧ (es = [] → new.rawLen ≤ 6 + max 8 s.length) := by
  cases whr with
  | HEAD =>
      obtain ⟨zl', new, hinsert, hrep, hbytes, hraw, hfirst⟩ :=
        @ziplistInsertAt_room [] es s copied zl mem h hs hcopied hroom
      exact ⟨zl', new, hinsert, hrep, hbytes, hraw, fun _ => hfirst rfl⟩
  | TAIL =>
      have hend : ziplistEntryEnd zl = some (10 + size es) := by
        have hsmall := h.small
        unfold ziplistEntryEnd
        rw [h.zlBytes, some_bind]
        exact sizeT_eq (by omega)
      obtain ⟨zl', new, hinsert, hrep, hbytes, hraw, hfirst⟩ :=
        @ziplistInsertAt_room es [] s copied zl mem (by rwa [List.append_nil]) hs hcopied
          (by rwa [List.append_nil])
      refine ⟨zl', new, ?_, hrep, hbytes, hraw, hfirst⟩
      show (ziplistEntryEnd zl >>= fun p => ziplistInsertAt mem zl p s copied) = some zl'
      rw [hend, some_bind, hinsert]

end Ziplist

end RedisCore
