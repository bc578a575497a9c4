/-
# `RedisCore.Dict.Random` — taking entries at random (`dictGetRandomKey`, `dictGetSomeKeys`)

What `random()` returns is an argument: a sequence of numbers.  While the dict is rehashed the
buckets of both tables count as one row, the second table behind the first, from `rehashidx`
on, since the first table has nothing before.

Both functions stay inside the tables and give live entries only, whatever `random()` returns.
But `dictGetRandomKey` does not come to every entry: the number of the bucket is made from one
call of `random()`, which has 31 bits, and is kept in an `unsigned int`, and the length of a
chain in an `int`.  The theorem at the end says which entries are out of its reach.
-/
import RedisCore.Dict.IteratorRuns

namespace RedisCore

variable {α β : Type} {t : DictType α}

/-! ## `dictGetRandomKey` -/

/-- `random()` returns numbers up to this. -/
def RAND_MAX : Nat := 2 ^ 31 - 1

/-- A bucket of one of the tables; `none` outside of it. -/
def bucketAt (d : Dict α β) (second : Bool) (i : Nat) : Option (List (DictEntry α β)) :=
  (if second then d.ht1 else d.ht0).table[i]?

/-- `(h >= d->ht[0].size) ? d->ht[1].table[h - d->ht[0].size] : d->ht[0].table[h]` -/
def rowBucket (d : Dict α β) (h : Nat) : Bool × Nat :=
  if h ≥ d.ht0.size then (true, h - d.ht0.size) else (false, h)

/-- The bucket that a random number stands for. -/
def drawn (d : Dict α β) (x : Nat) : Bool × Nat :=
  match d.rehashidx with
  | some rehashidx =>
    rowBucket d (CInt.toUInt (rehashidx + x % (d.ht0.size + d.ht1.size - rehashidx) : Nat))
  | none => (false, CInt.toUInt (x &&& d.ht0.sizemask : Nat))

/-- The loops that look for a bucket with entries, for at most so many draws: the bucket, and
how many numbers are used. -/
def findBucket (d : Dict α β) (random : Nat → Nat) : Nat → Nat → Option (Bool × Nat × Nat)
  | 0, _ => none
  | fuel + 1, k => do
    let (second, i) := drawn d (random k)
    let he ← bucketAt d second i
    if he.isEmpty then findBucket d random fuel (k + 1) else some (second, i, k + 1)

/-- A random element of a chain, by its depth; `none` for a division by zero, or for a step
behind the end of the chain. -/
def randomElement (he : List (DictEntry α β)) (x : Nat) : Option Nat :=
  let listlen := CInt.toInt he.length
  if listlen = 0 then none
  else
    let listele := (Int.tmod x listlen).toNat
    if listele < he.length then some listele else none

/-- `dictGetRandomKey`, with at most so many draws for the bucket. -/
def dictGetRandomKey (t : DictType α) (d : Dict α β) (random : Nat → Nat) (fuel : Nat) :
    Option (Dict α β × Option Ref) :=
  if dictSize d = 0 then some (d, none)
  else do
    let d := rehashStepIfNeeded t d
    let (second, i, k) ← findBucket d random fuel 0
    let he ← bucketAt d second i
    let listele ← randomElement he (random k)
    some (d, some ⟨second, i, listele⟩)

/-! ## `dictGetSomeKeys` -/

/-- What changes while keys are sampled. -/
structure Sampling where
  i : Nat
  emptylen : Nat
  draws : Nat
  stored : List Ref

/-- The pointers to the entries of a bucket. -/
def chainRefs (second : Bool) (i : Nat) (he : List (DictEntry α β)) : List Ref :=
  (List.range he.length).map (fun depth => ⟨second, i, depth⟩)

/-- The inner loop, for one table. -/
def visitTable (d : Dict α β) (count maxsizemask : Nat) (random : Nat → Nat) (second : Bool)
    (s : Sampling) : Option Sampling :=
  let rehashidx := d.rehashidx.getD 0
  if second = false ∧ s.i < rehashidx then
    -- nothing is in the first table here, nor in the second one out of its range
    some (if s.i ≥ d.ht1.size then { s with i := rehashidx } else s)
  else if s.i ≥ (if second then d.ht1 else d.ht0).size then some s
  else do
    let he ← bucketAt d second s.i
    if he.isEmpty then
      let emptylen := s.emptylen + 1
      if emptylen ≥ 5 ∧ emptylen > count then
        some { s with i := random s.draws &&& maxsizemask, emptylen := 0, draws := s.draws + 1 }
      else some { s with emptylen := emptylen }
    else
      some { s with
        emptylen := 0
        stored := s.stored ++ (chainRefs second s.i he).take (count - s.stored.length) }

/-- The outer loop, with so many steps left. -/
def sampleLoop (d : Dict α β) (count maxsizemask : Nat) (random : Nat → Nat) :
    Nat → Sampling → Option Sampling
  | 0, s => some s
  | maxsteps + 1, s =>
    if s.stored.length < count then do
      let s ← visitTable d count maxsizemask random false s
      if s.stored.length = count then some s
      else do
        let s ← (if dictIsRehashing d then visitTable d count maxsizemask random true s else some s :
          Option Sampling)
        if s.stored.length = count then some s
        else sampleLoop d count maxsizemask random maxsteps { s with i := (s.i + 1) &&& maxsizemask }
    else some s

/-- Some rehashing first, as long as there is any to do. -/
def rehashSteps (t : DictType α) : Nat → Dict α β → Dict α β
  | 0, d => d
  | n + 1, d => if dictIsRehashing d then rehashSteps t n (dictRehashStep t d) else d

/-- The mask of the larger table. -/
def maxSizemask (d : Dict α β) : Nat :=
  if dictIsRehashing d ∧ d.ht0.sizemask < d.ht1.sizemask then d.ht1.sizemask else d.ht0.sizemask

/-- `dictGetSomeKeys`: the pointers that it stores. -/
def dictGetSomeKeys (t : DictType α) (d : Dict α β) (count : Nat) (random : Nat → Nat) :
    Option (Dict α β × List Ref) := do
  let count := if dictSize d < count then dictSize d else count
  let maxsteps := CInt.toUInt (count * 10 : Nat)
  let d := rehashSteps t count d
  let s ← sampleLoop d count (maxSizemask d) random maxsteps ⟨random 0 &&& maxSizemask d, 0, 1, []⟩
  some (d, s.stored)

/-! ## Inside the tables -/

variable {d d' : Dict α β} {random : Nat → Nat} {count mask fuel i k x : Nat} {second : Bool}
  {he : List (DictEntry α β)} {s : Sampling}

/-- The table. -/
theorem Inv.table (h : Inv t d) (second : Bool) : HtInv t (if second then d.ht1 else d.ht0) := by
  cases second with
  | false => exact h.ht0
  | true => exact h.ht1

theorem bucketAt_isSome (h : Inv t d) (hi : i < (if second then d.ht1 else d.ht0).size) :
    ∃ he, bucketAt d second i = some he := by
  rw [← (h.table second).length] at hi
  exact ⟨_, List.getElem?_eq_getElem hi⟩

/-- Pointers into a bucket. -/
theorem entryAt_bucket (hb : bucketAt d second i = some he) (depth : Nat) :
    entryAt d ⟨second, i, depth⟩ = he[depth]? := by
  rw [bucketAt] at hb
  rw [entryAt]
  dsimp only
  rw [Dictht.chain, List.getD_eq_getElem?_getD, hb]
  rfl

theorem bucketAt_of_entryAt {r : Ref} {e : DictEntry α β} (hr : entryAt d r = some e) :
    ∃ he, bucketAt d r.second r.bucket = some he ∧ he[r.depth]? = some e := by
  rw [entryAt, Dictht.chain, List.getD_eq_getElem?_getD] at hr
  unfold bucketAt
  cases hb : (if r.second then d.ht1 else d.ht0).table[r.bucket]? with
  | none =>
      rw [hb] at hr
      cases hr
  | some he =>
      rw [hb] at hr
      exact ⟨he, rfl, hr⟩

/-- An entry in a dict whose rehashing has gone on. -/
theorem Same.live (hs : Same t d d') {r : Ref} {e : DictEntry α β} (hr : entryAt d' r = some e) :
    e ∈ d.entries :=
  hs.perm.mem_iff.mp (mem_entries_of_entryAt hr)

theorem rehashSteps_same (hl : t.Lawful) (h : Inv t d) (n : Nat) : Same t d (rehashSteps t n d) := by
  induction n generalizing d with
  | zero => exact Same.refl h
  | succ n ih =>
      rw [rehashSteps]
      split
      · next hr =>
          have hstep := rehashStepIfNeeded_spec hl h
          rw [rehashStepIfNeeded, if_pos hr] at hstep
          exact hstep.trans (ih hstep.inv)
      · exact Same.refl h

/-- What has been stored: at most so many pointers, all to entries. -/
structure Live (d : Dict α β) (count : Nat) (s : Sampling) : Prop where
  length : s.stored.length ≤ count
  live : ∀ r ∈ s.stored, ∃ e, entryAt d r = some e

theorem visitTable_spec (h : Inv t d) (hs : Live d count s) (mask : Nat) (random : Nat → Nat)
    (second : Bool) : ∃ s', visitTable d count mask random second s = some s' ∧ Live d count s' := by
  unfold visitTable
  dsimp only
  by_cases hskip : second = false ∧ s.i < d.rehashidx.getD 0
  · rw [if_pos hskip]
    refine ⟨_, rfl, ?_⟩
    split
    · exact ⟨hs.length, hs.live⟩
    · exact hs
  rw [if_neg hskip]
  by_cases hrange : s.i ≥ (if second then d.ht1 else d.ht0).size
  · rw [if_pos hrange]
    exact ⟨s, rfl, hs⟩
  obtain ⟨he, hb⟩ := bucketAt_isSome h (Nat.lt_of_not_le hrange)
  rw [if_neg hrange, hb]
  simp only [Option.bind_eq_bind, Option.bind_some]
  cases hempty : he.isEmpty with
  | true =>
      rw [if_pos rfl]
      split
      · exact ⟨_, rfl, hs.length, hs.live⟩
      · exact ⟨_, rfl, hs.length, hs.live⟩
  | false =>
      rw [if_neg Bool.false_ne_true]
      refine ⟨_, rfl, ?_, ?_⟩
      · have hlen := hs.length
        show (s.stored ++ _).length ≤ count
        rw [List.length_append, List.length_take]
        omega
      · intro r hr
        rcases List.mem_append.mp hr with hr | hr
        · exact hs.live r hr
        · obtain ⟨depth, hdepth, rfl⟩ := List.mem_map.mp (List.mem_of_mem_take hr)
          have hlt := List.mem_range.mp hdepth
          exact ⟨he[depth], by rw [entryAt_bucket hb, List.getElem?_eq_getElem hlt]⟩

theorem sampleLoop_spec (h : Inv t d) (hs : Live d count s) (mask : Nat) (random : Nat → Nat)
    (maxsteps : Nat) :
    ∃ s', sampleLoop d count mask random maxsteps s = some s' ∧ Live d count s' := by
  induction maxsteps generalizing s with
  | zero => exact ⟨s, rfl, hs⟩
  | succ maxsteps ih =>
      rw [sampleLoop]
      split
      · obtain ⟨s₁, hrun₁, hs₁⟩ := visitTable_spec h hs mask random false
        rw [hrun₁]
        simp only [Option.bind_eq_bind, Option.bind_some]
        split
        · exact ⟨s₁, rfl, hs₁⟩
        · obtain ⟨s₂, hrun₂, hs₂⟩ : ∃ s₂, (if dictIsRehashing d = true then
              visitTable d count mask random true s₁ else some s₁) = some s₂ ∧ Live d count s₂ := by
            split
            · exact visitTable_spec h hs₁ mask random true
            · exact ⟨s₁, rfl, hs₁⟩
          rw [hrun₂]
          simp only [Option.bind_some]
          split
          · exact ⟨s₂, rfl, hs₂⟩
          · exact ih ⟨hs₂.length, hs₂.live⟩
      · exact ⟨s, rfl, hs⟩

/-- `dictGetSomeKeys` ends without leaving the tables, with pointers to entries. -/
theorem dictGetSomeKeys_spec (hl : t.Lawful) (h : Inv t d) (count : Nat) (random : Nat → Nat) :
    ∃ d' refs, dictGetSomeKeys t d count random = some (d', refs) ∧
      refs.length ≤ min count (dictSize d) ∧
      ∀ r ∈ refs, ∃ e ∈ d.entries, entryAt d' r = some e := by
  generalize hcount : (if dictSize d < count then dictSize d else count) = n
  have hsame := rehashSteps_same hl h n
  obtain ⟨s, hrun, hs⟩ := sampleLoop_spec hsame.inv
    (s := ⟨random 0 &&& maxSizemask (rehashSteps t n d), 0, 1, []⟩)
    ⟨Nat.zero_le n, fun r hr => nomatch hr⟩ (maxSizemask (rehashSteps t n d)) random
    (CInt.toUInt (n * 10 : Nat))
  refine ⟨rehashSteps t n d, s.stored, ?_, ?_, ?_⟩
  · rw [dictGetSomeKeys, hcount, hrun]
    rfl
  · have hlen := hs.length
    rw [← hcount] at hlen
    split at hlen <;> omega
  · intro r hr
    obtain ⟨e, he⟩ := hs.live r hr
    exact ⟨e, hsame.live he, he⟩

/-! ## Which buckets are drawn -/

/-- The number of a bucket in the row of both tables. -/
def number (d : Dict α β) (second : Bool) (i : Nat) : Nat := if second then d.ht0.size + i else i

/-- `dictGetRandomKey` comes to every entry: the buckets that are not empty have numbers of 32
bits, and none is 2^31 numbers or more behind `rehashidx`, and no chain is longer than 2^31. -/
def Drawable (d : Dict α β) : Prop :=
  ∀ second i he, bucketAt d second i = some he → he ≠ [] →
    number d second i < 2 ^ 32 ∧ number d second i - d.rehashidx.getD 0 < 2 ^ 31 ∧
      he.length ≤ 2 ^ 31

theorem toUInt_natCast (n : Nat) : CInt.toUInt (n : Int) = n % 2 ^ 32 := by
  unfold CInt.toUInt
  omega

theorem bucketAt_lt (h : Inv t d) (hb : bucketAt d second i = some he) :
    i < (if second then d.ht1 else d.ht0).size := by
  rw [← (h.table second).length]
  exact (List.getElem?_eq_some_iff.mp hb).1

/-- Where there are entries, there is no less than the first table. -/
theorem ht0_size_ne (h : Inv t d) (hne : dictSize d ≠ 0) : d.ht0.size ≠ 0 := by
  intro hzero
  cases hr : d.rehashidx with
  | some idx => exact (h.behind idx hr).2 hzero
  | none =>
      refine hne ?_
      rw [dictSize_eq h, Dict.entries, Dictht.entries, h.ht0.entries_nil hzero,
        h.ht1_entries_nil hr]
      rfl

theorem drawn_rehashing {idx : Nat} (hr : d.rehashidx = some idx) (x : Nat) :
    drawn d x = rowBucket d ((idx + x % (d.ht0.size + d.ht1.size - idx)) % 2 ^ 32) := by
  rw [drawn, hr]
  dsimp only
  rw [toUInt_natCast]

theorem drawn_settled (hr : d.rehashidx = none) (x : Nat) :
    drawn d x = (false, (x &&& d.ht0.sizemask) % 2 ^ 32) := by
  rw [drawn, hr]
  dsimp only
  rw [toUInt_natCast]

/-- The bucket with a number. -/
theorem rowBucket_number (second : Bool) (h : second = false → i < d.ht0.size) :
    rowBucket d (number d second i) = (second, i) := by
  unfold rowBucket number
  cases second with
  | false =>
      have hlt := h rfl
      rw [if_neg Bool.false_ne_true, if_neg (Nat.not_le_of_lt hlt)]
  | true => rw [if_pos rfl, if_pos (Nat.le_add_right _ _), Nat.add_sub_cancel_left]

theorem number_rowBucket (d : Dict α β) (x : Nat) :
    number d (rowBucket d x).1 (rowBucket d x).2 = x := by
  unfold rowBucket
  split
  · next h => exact Nat.add_sub_cancel' h
  · rfl

theorem rowBucket_lt (hx : x < d.ht0.size + d.ht1.size) :
    (rowBucket d x).2 < (if (rowBucket d x).1 then d.ht1 else d.ht0).size := by
  unfold rowBucket
  split
  · next h =>
      rw [if_pos rfl]
      exact Nat.sub_lt_left_of_lt_add h hx
  · next h =>
      rw [if_neg Bool.false_ne_true]
      exact Nat.lt_of_not_le h

/-- A draw is a bucket of the tables. -/
theorem drawn_in_range (h : Inv t d) (hne : d.ht0.size ≠ 0) (x : Nat) :
    ∃ he, bucketAt d (drawn d x).1 (drawn d x).2 = some he := by
  apply bucketAt_isSome h
  cases hr : d.rehashidx with
  | some idx =>
      have hbehind := (h.behind idx hr).1
      have hsize := h.ht1_size_ne hr
      have hmod := Nat.mod_lt x (show 0 < d.ht0.size + d.ht1.size - idx by omega)
      have hle := Nat.mod_le (idx + x % (d.ht0.size + d.ht1.size - idx)) (2 ^ 32)
      rw [drawn_rehashing hr]
      exact rowBucket_lt (by omega)
  | none =>
      have hle := Nat.mod_le (x &&& d.ht0.sizemask) (2 ^ 32)
      have hand : x &&& d.ht0.sizemask ≤ d.ht0.sizemask := Nat.and_le_right
      have hmask := h.ht0.mask
      rw [drawn_settled hr]
      dsimp only
      rw [if_neg Bool.false_ne_true]
      omega

/-- The bucket that is found is one that was drawn, and is not empty. -/
theorem findBucket_drawn {k' : Nat} (hf : findBucket d random fuel k = some (second, i, k')) :
    ∃ j he, drawn d (random j) = (second, i) ∧ bucketAt d second i = some he ∧ he ≠ [] := by
  induction fuel generalizing k with
  | zero => exact nomatch hf
  | succ fuel ih =>
      rw [findBucket] at hf
      generalize hdraw : drawn d (random k) = draw at hf
      obtain ⟨second', i'⟩ := draw
      obtain ⟨he, hb, hf⟩ := Option.bind_eq_some_iff.mp hf
      split at hf
      · exact ih hf
      · next hne =>
          cases hf
          exact ⟨k, he, hdraw, hb, fun hnil => hne (List.isEmpty_iff.mpr hnil)⟩

theorem randomElement_lt {depth : Nat} (hp : randomElement he x = some depth) :
    depth < he.length ∧ depth ≤ x := by
  unfold randomElement at hp
  generalize CInt.toInt he.length = listlen at hp
  dsimp only at hp
  split at hp
  · exact nomatch hp
  · split at hp
    · next hlt =>
        cases hp
        have habs := Int.natAbs_tmod x listlen
        have hmod := Nat.mod_le x listlen.natAbs
        rw [Int.natAbs_natCast] at habs
        exact ⟨hlt, by omega⟩
    · exact nomatch hp

/-- What `dictGetRandomKey` returns is in a bucket that was drawn, and no deeper in it than a
random number is. -/
theorem dictGetRandomKey_drawn {r : Ref}
    (hrun : dictGetRandomKey t d random fuel = some (d', some r)) :
    d' = rehashStepIfNeeded t d ∧ ∃ j k he, drawn d' (random j) = (r.second, r.bucket) ∧
      bucketAt d' r.second r.bucket = some he ∧ r.depth < he.length ∧ r.depth ≤ random k := by
  unfold dictGetRandomKey at hrun
  split at hrun
  · exact nomatch hrun
  · obtain ⟨⟨second, i, k⟩, hf, hrun⟩ := Option.bind_eq_some_iff.mp hrun
    obtain ⟨he, hb, hrun⟩ := Option.bind_eq_some_iff.mp hrun
    obtain ⟨listele, hp, hrun⟩ := Option.bind_eq_some_iff.mp hrun
    obtain ⟨j, -, hdraw, -, -⟩ := findBucket_drawn hf
    obtain ⟨hlt, hle⟩ := randomElement_lt hp
    cases hrun
    exact ⟨rfl, j, k, he, hdraw, hb, hlt, hle⟩

/-- Nothing is returned of an empty dict only. -/
theorem dictGetRandomKey_none (hrun : dictGetRandomKey t d random fuel = some (d', none)) :
    dictSize d = 0 := by
  unfold dictGetRandomKey at hrun
  split at hrun
  · next hsize => exact hsize
  · obtain ⟨_, -, hrun⟩ := Option.bind_eq_some_iff.mp hrun
    obtain ⟨_, -, hrun⟩ := Option.bind_eq_some_iff.mp hrun
    obtain ⟨_, -, hrun⟩ := Option.bind_eq_some_iff.mp hrun
    exact nomatch hrun

/-- No entry is before `rehashidx`. -/
theorem number_ge (h : Inv t d) (hb : bucketAt d second i = some he) (hne : he ≠ []) :
    d.rehashidx.getD 0 ≤ number d second i := by
  cases hr : d.rehashidx with
  | none => exact Nat.zero_le _
  | some idx =>
      have hbehind := (h.behind idx hr).1
      show idx ≤ number d second i
      unfold number
      cases second with
      | true =>
          rw [if_pos rfl]
          omega
      | false =>
          rw [if_neg Bool.false_ne_true]
          by_contra hlt
          have hempty := h.drained idx hr i (Nat.lt_of_not_le hlt)
          rw [Dictht.chain, List.getD_eq_getElem?_getD] at hempty
          have hchain : d.ht0.table[i]? = some he := hb
          rw [hchain] at hempty
          exact hne hempty

/-- Where a draw has less than 2^31 numbers to choose from, the bucket is not far behind
`rehashidx`. -/
theorem drawn_near (hge : d.rehashidx.getD 0 ≤ number d second i) (hx : x ≤ RAND_MAX)
    (hdraw : drawn d x = (second, i)) :
    number d second i < 2 ^ 32 ∧ number d second i - d.rehashidx.getD 0 < 2 ^ 31 := by
  have hmax : RAND_MAX = 2 ^ 31 - 1 := rfl
  cases hr : d.rehashidx with
  | some idx =>
      rw [hr] at hge
      rw [drawn_rehashing hr] at hdraw
      have hnumber := number_rowBucket d ((idx + x % (d.ht0.size + d.ht1.size - idx)) % 2 ^ 32)
      rw [hdraw] at hnumber
      dsimp only at hnumber
      have hle := Nat.mod_le x (d.ht0.size + d.ht1.size - idx)
      simp only [Option.getD_some] at hge ⊢
      omega
  | none =>
      rw [drawn_settled hr] at hdraw
      cases hdraw
      have hand : x &&& d.ht0.sizemask ≤ x := Nat.and_le_left
      have hle := Nat.mod_le (x &&& d.ht0.sizemask) (2 ^ 32)
      simp only [Option.getD_none, number, if_neg Bool.false_ne_true]
      omega

/-- A bucket that is not far away is drawn with the right number. -/
theorem drawn_of_near (h : Inv t d) (hb : bucketAt d second i = some he) (hne : he ≠ [])
    (hnear : number d second i < 2 ^ 32) :
    drawn d (number d second i - d.rehashidx.getD 0) = (second, i) := by
  have hge := number_ge h hb hne
  have hlt := bucketAt_lt h hb
  cases hr : d.rehashidx with
  | some idx =>
      rw [hr, Option.getD_some] at hge
      have hrow : number d second i < d.ht0.size + d.ht1.size := by
        unfold number
        cases second with
        | true =>
            rw [if_pos rfl] at hlt ⊢
            exact Nat.add_lt_add_left hlt _
        | false =>
            rw [if_neg Bool.false_ne_true] at hlt ⊢
            exact Nat.lt_add_right _ hlt
      rw [drawn_rehashing hr, Option.getD_some, Nat.mod_eq_of_lt (Nat.sub_lt_sub_right hge hrow),
        Nat.add_sub_cancel' hge, Nat.mod_eq_of_lt hnear]
      refine rowBucket_number second (fun hs => ?_)
      rw [hs, if_neg Bool.false_ne_true] at hlt
      exact hlt
  | none =>
      obtain rfl : second = false := by
        cases second with
        | false => rfl
        | true =>
            rw [if_pos rfl, h.idle.mp hr] at hlt
            exact absurd hlt (Nat.not_lt_zero i)
      rw [if_neg Bool.false_ne_true] at hlt
      have hnumber : number d false i = i := rfl
      rw [hnumber] at hnear ⊢
      obtain ⟨n, hpow⟩ := h.ht0.pow.resolve_left (Nat.ne_of_gt (Nat.zero_lt_of_lt hlt))
      have hin : i % 2 ^ n = i := Nat.mod_eq_of_lt (hpow ▸ hlt)
      rw [drawn_settled hr, Option.getD_none, Nat.sub_zero, h.ht0.mask, hpow,
        Nat.and_two_pow_sub_one_eq_mod, hin, Nat.mod_eq_of_lt hnear]

/-- A position in a chain is its remainder by the length, also where the `int` is negative. -/
theorem tmod_toInt {depth len : Nat} (hdepth : depth < len) (hlen : len ≤ 2 ^ 31) :
    CInt.toInt len ≠ 0 ∧ (Int.tmod depth (CInt.toInt len)).toNat = depth := by
  rcases Nat.lt_or_eq_of_le hlen with hlt | rfl
  · rw [CInt.toInt_eq (by omega) (by omega), Int.tmod_eq_of_lt (by omega) (by omega)]
    exact ⟨by omega, Int.toNat_natCast depth⟩
  · have hneg : CInt.toInt ((2 ^ 31 : Nat) : Int) = -(2 ^ 31) := by decide
    rw [hneg, Int.tmod_neg, Int.tmod_eq_of_lt (by omega) (by omega)]
    exact ⟨by decide, Int.toNat_natCast depth⟩

/-- What is to hold of random access, for any random numbers: pointers are to live entries, no
table is left, and there are numbers for every entry of the dict. -/
structure RandomAccess (t : DictType α) (d : Dict α β) : Prop where
  some_keys : ∀ count random, ∃ d' refs, dictGetSomeKeys t d count random = some (d', refs) ∧
    refs.length ≤ min count (dictSize d) ∧ ∀ r ∈ refs, ∃ e ∈ d.entries, entryAt d' r = some e
  in_range : dictSize d ≠ 0 → ∀ x, ∃ he, bucketAt (rehashStepIfNeeded t d)
    (drawn (rehashStepIfNeeded t d) x).1 (drawn (rehashStepIfNeeded t d) x).2 = some he
  live : ∀ random fuel d' res, dictGetRandomKey t d random fuel = some (d', res) →
    res = none ∧ d.entries = [] ∨ ∃ r, res = some r ∧ ∃ e ∈ d.entries, entryAt d' r = some e
  all : ∀ r e, entryAt (rehashStepIfNeeded t d) r = some e → ∃ random fuel,
    (∀ k, random k ≤ RAND_MAX) ∧
      dictGetRandomKey t d random fuel = some (rehashStepIfNeeded t d, some r)

/-- A bucket that is drawn and has entries is found at once. -/
theorem findBucket_first (hdraw : drawn d (random k) = (second, i))
    (hb : bucketAt d second i = some he) (hne : he ≠ []) :
    findBucket d random 1 k = some (second, i, k + 1) := by
  have hempty : ¬ he.isEmpty = true := fun hempty => hne (List.isEmpty_iff.mp hempty)
  rw [findBucket, hdraw]
  dsimp only
  rw [hb]
  simp only [Option.bind_eq_bind, Option.bind_some]
  rw [if_neg hempty]

/-- An element of a chain that is not too long is returned for its own depth. -/
theorem randomElement_self {depth : Nat} (hdepth : depth < he.length) (hlen : he.length ≤ 2 ^ 31) :
    randomElement he depth = some depth := by
  obtain ⟨hzero, htmod⟩ := tmod_toInt hdepth hlen
  unfold randomElement
  generalize CInt.toInt he.length = listlen at hzero htmod ⊢
  dsimp only
  rw [if_neg hzero, htmod, if_pos hdepth]

/-- The bucket is found, and the next number is the depth. -/
theorem dictGetRandomKey_found {depth : Nat} (hsize : dictSize d ≠ 0)
    (hf : findBucket (rehashStepIfNeeded t d) random fuel 0 = some (second, i, k))
    (hb : bucketAt (rehashStepIfNeeded t d) second i = some he)
    (hp : randomElement he (random k) = some depth) :
    dictGetRandomKey t d random fuel = some (rehashStepIfNeeded t d, some ⟨second, i, depth⟩) := by
  unfold dictGetRandomKey
  rw [if_neg hsize]
  refine Option.bind_eq_some_iff.mpr ⟨_, hf, ?_⟩
  refine Option.bind_eq_some_iff.mpr ⟨he, hb, ?_⟩
  exact Option.bind_eq_some_iff.mpr ⟨depth, hp, rfl⟩

/-- With the right numbers an entry is found at the first draw. -/
theorem dictGetRandomKey_all (hl : t.Lawful) (h : Inv t d)
    (hd : Drawable (rehashStepIfNeeded t d)) {r : Ref} {e : DictEntry α β}
    (hr : entryAt (rehashStepIfNeeded t d) r = some e) : ∃ random fuel,
    (∀ k, random k ≤ RAND_MAX) ∧
      dictGetRandomKey t d random fuel = some (rehashStepIfNeeded t d, some r) := by
  have hsame := rehashStepIfNeeded_spec hl h
  have hsize : dictSize d ≠ 0 := by
    rw [dictSize_eq h]
    exact Nat.ne_of_gt (List.length_pos_of_mem (hsame.live hr))
  obtain ⟨he, hb, hget⟩ := bucketAt_of_entryAt hr
  obtain ⟨hdepth, -⟩ := List.getElem?_eq_some_iff.mp hget
  have hne : he ≠ [] := List.ne_nil_of_length_pos (Nat.zero_lt_of_lt hdepth)
  obtain ⟨hnear, hclose, hlen⟩ := hd r.second r.bucket he hb hne
  have hdraw := drawn_of_near hsame.inv hb hne hnear
  generalize number (rehashStepIfNeeded t d) r.second r.bucket -
    (rehashStepIfNeeded t d).rehashidx.getD 0 = x at hdraw hclose
  have hfind : findBucket (rehashStepIfNeeded t d) (fun k => if k = 0 then x else r.depth) 1 0 =
      some (r.second, r.bucket, 1) := findBucket_first hdraw hb hne
  refine ⟨fun k => if k = 0 then x else r.depth, 1, fun k => ?_,
    dictGetRandomKey_found hsize hfind hb (randomElement_self hdepth hlen)⟩
  show (if k = 0 then x else r.depth) ≤ RAND_MAX
  split
  · exact Nat.le_sub_one_of_lt hclose
  · exact Nat.le_sub_one_of_lt (Nat.lt_of_lt_of_le hdepth hlen)

/-- **`dictGetSomeKeys`** and **`dictGetRandomKey`** stay inside the tables and give live entries;
and every entry is returned for some random numbers exactly when no bucket with entries is too
far away, and no chain too long. -/
theorem randomAccess_iff (hl : t.Lawful) (h : Inv t d) :
    RandomAccess t d ↔ Drawable (rehashStepIfNeeded t d) := by
  have hsame := rehashStepIfNeeded_spec hl h
  constructor
  · intro hra second i he hb hne
    have hlast : he.length - 1 < he.length := Nat.sub_one_lt (fun h0 =>
      hne (List.length_eq_zero_iff.mp h0))
    have hentry := entryAt_bucket hb (he.length - 1)
    rw [List.getElem?_eq_getElem hlast] at hentry
    obtain ⟨random, fuel, hrandom, hrun⟩ := hra.all _ _ hentry
    obtain ⟨-, j, k, -, hdraw, -, -, hdepth⟩ := dictGetRandomKey_drawn hrun
    obtain ⟨hnear, hclose⟩ := drawn_near (number_ge hsame.inv hb hne) (hrandom j) hdraw
    have hk := hrandom k
    have hmax : RAND_MAX = 2 ^ 31 - 1 := rfl
    dsimp only at hdepth
    exact ⟨hnear, hclose, by omega⟩
  · intro hd
    refine ⟨dictGetSomeKeys_spec hl h, fun hne => drawn_in_range hsame.inv ?_, ?_,
      fun r e => dictGetRandomKey_all hl h hd⟩
    · refine ht0_size_ne hsame.inv ?_
      rwa [dictSize_eq hsame.inv, hsame.perm.length_eq, ← dictSize_eq h]
    · intro random fuel d' res hrun
      cases res with
      | none =>
          have hsize := dictGetRandomKey_none hrun
          rw [dictSize_eq h] at hsize
          exact .inl ⟨rfl, List.length_eq_zero_iff.mp hsize⟩
      | some r =>
          obtain ⟨rfl, -, -, he, -, hb, hlt, -⟩ := dictGetRandomKey_drawn hrun
          have hentry := entryAt_bucket hb r.depth
          rw [List.getElem?_eq_getElem hlt] at hentry
          exact .inr ⟨r, rfl, _, hsame.live hentry, hentry⟩

/-- A table of less than 2^31 buckets has no more than 2^30, as its size is a power of two. -/
theorem HtInv.size_le {ht : Dictht α β} (h : HtInv t ht) (hlt : ht.size < 2 ^ 31) :
    ht.size ≤ 2 ^ 30 := by
  rcases h.pow with hzero | ⟨k, hk⟩
  · rw [hzero]
    exact Nat.zero_le _
  · rw [hk] at hlt ⊢
    exact Nat.pow_le_pow_right Nat.two_pos (Nat.le_of_lt_succ ((Nat.pow_lt_pow_iff_right
      (Nat.lt_succ_self 1)).mp hlt))

/-- With tables of less than 2^31 buckets, and not more entries than that, every entry can be
returned. -/
theorem drawable_of_small (h : Inv t d) (hs : Small d) (hlen : dictSize d ≤ 2 ^ 31) :
    Drawable d := by
  intro second i he hb hne
  have hlt := bucketAt_lt h hb
  have hmem : he ∈ (if second then d.ht1 else d.ht0).table := List.mem_of_getElem? hb
  have hchain : he.length ≤ (if second then d.ht1 else d.ht0).used := by
    rw [(h.table second).used]
    exact (List.sublist_flatten_of_mem hmem).length_le
  have hused : (if second then d.ht1 else d.ht0).used ≤ dictSize d := by
    unfold dictSize
    cases second with
    | false => exact Nat.le_add_right _ _
    | true => exact Nat.le_add_left _ _
  have h0 := h.ht0.size_le hs.1
  have h1 := h.ht1.size_le hs.2
  have hnumber : number d second i < 2 ^ 31 := by
    unfold number
    cases second with
    | false =>
        rw [if_neg Bool.false_ne_true] at hlt ⊢
        omega
    | true =>
        rw [if_pos rfl] at hlt ⊢
        omega
  exact ⟨by omega, by omega, by omega⟩

/-- A dict of four buckets in the middle of growing to eight. -/
def halfGrown : Dict Nat Nat :=
  (dictRun uintType dictCreate [.add true 1 10 0, .add true 5 50 0, .add true 2 20 0,
    .add true 3 30 0, .add true 4 40 0]).1

theorem randomAccess_iff_halfGrown : dictIsRehashing halfGrown = true ∧
    RandomAccess uintType halfGrown := by
  have hinv : Inv uintType halfGrown :=
    (run_refines uintType_lawful _ (denotes_dictCreate uintType_lawful) (by decide)).1.inv
  have hsame := rehashStepIfNeeded_spec uintType_lawful hinv
  refine ⟨by decide, (randomAccess_iff uintType_lawful hinv).mpr ?_⟩
  exact drawable_of_small hsame.inv (by decide) (by decide)

/-! ## An entry that is too far away -/

/-- What is returned is not far behind `rehashidx`. -/
theorem dictGetRandomKey_near {r : Ref} (hge : d'.rehashidx.getD 0 ≤ number d' r.second r.bucket)
    (hrandom : ∀ k, random k ≤ RAND_MAX)
    (hrun : dictGetRandomKey t d random fuel = some (d', some r)) :
    number d' r.second r.bucket - d'.rehashidx.getD 0 < 2 ^ 31 := by
  obtain ⟨-, j, -, -, hdraw, -⟩ := dictGetRandomKey_drawn hrun
  exact (drawn_near hge (hrandom j) hdraw).2

/-- The chain that an entry is pushed on. -/
theorem chain_pushRehashed {ht : Dictht α β} {e : DictEntry α β}
    (hlt : ht.index t e.key < ht.table.length) :
    (pushRehashed t ht e).chain (ht.index t e.key) = e :: ht.chain (ht.index t e.key) := by
  show (ht.setChain (ht.index t e.key) (e :: ht.chain (ht.index t e.key))).chain _ = _
  rw [Dictht.chain_setChain hlt, if_pos rfl]

/-- One entry, and a second table of so many buckets. -/
def farDict (n : Nat) : Dict Nat Nat :=
  ⟨⟨[[⟨2 ^ 31, 0⟩], [], [], []], 4, 3, 1⟩, ⟨List.replicate n [], n, n - 1, 0⟩, some 0, 0⟩

theorem farDict_run : (dictRun uintType dictCreate [.add true (2 ^ 31) 0 0, .expand (2 ^ 32)]).1 =
    farDict (2 ^ 32) := by
  have hpower : dictNextPower (2 ^ 32) = 2 ^ 32 := by decide +kernel
  have hadd : (dictStep uintType dictCreate (.add true (2 ^ 31) 0 0)).1 =
      ⟨⟨[[⟨2 ^ 31, 0⟩], [], [], []], 4, 3, 1⟩, dictReset, none, 0⟩ := rfl
  show (dictStep uintType (dictStep uintType dictCreate (.add true (2 ^ 31) 0 0)).1
    (.expand (2 ^ 32))).1 = _
  rw [hadd]
  unfold dictStep dictExpand
  dsimp only
  rw [hpower]
  rfl

/-- The step moves the entry, and the second table takes the place of the first. -/
theorem farDict_step (n : Nat) : ∃ d', rehashStepIfNeeded uintType (farDict n) = d' ∧
    d'.rehashidx = none ∧ d'.ht0 = pushRehashed uintType ⟨List.replicate n [], n, n - 1, 0⟩ ⟨2 ^ 31, 0⟩ :=
  ⟨_, rfl, rfl, rfl⟩

/-- **`dictGetRandomKey`** never returns an entry in the upper half of a table of 2^32 buckets. -/
theorem dictGetRandomKey_unreached : ¬ RandomAccess uintType
    (dictRun uintType dictCreate [.add true (2 ^ 31) 0 0, .expand (2 ^ 32)]).1 := by
  rw [farDict_run]
  intro h
  obtain ⟨d', hstep, hidx, hht⟩ := farDict_step (2 ^ 32)
  have hindex : Dictht.index uintType (⟨List.replicate (2 ^ 32) [], 2 ^ 32, 2 ^ 32 - 1, 0⟩ :
      Dictht Nat Nat) (2 ^ 31) = 2 ^ 31 := by
    have hand : 2 ^ 31 % 2 ^ 32 &&& (2 ^ 32 - 1) = 2 ^ 31 := by decide
    exact hand
  have hentry : entryAt d' ⟨false, 2 ^ 31, 0⟩ = some ⟨2 ^ 31, 0⟩ := by
    have hlt : Dictht.index uintType (⟨List.replicate (2 ^ 32) [], 2 ^ 32, 2 ^ 32 - 1, 0⟩ :
        Dictht Nat Nat) (2 ^ 31) < (List.replicate (2 ^ 32) ([] : List (DictEntry Nat Nat))).length := by
      rw [hindex, List.length_replicate]
      decide
    have hchain := chain_pushRehashed hlt (e := ⟨2 ^ 31, 0⟩)
    rw [hindex, ← hht] at hchain
    show (d'.ht0.chain (2 ^ 31))[0]? = _
    rw [hchain]
    rfl
  rw [← hstep] at hentry hidx
  obtain ⟨random, fuel, hrandom, hrun⟩ := h.all _ _ hentry
  have hnear := dictGetRandomKey_near (by rw [hidx]; exact Nat.zero_le _) hrandom hrun
  rw [hidx] at hnear
  exact absurd hnear (Nat.lt_irrefl _)

end RedisCore
