/-
# `RedisCore.Commands` — the command table (server.c)

The table of commands is a dict whose keys are compared as C strings and hashed over their
whole length.  The registered names have no NUL byte, so among themselves, and for a name
without a NUL byte, it makes no difference which of the two counts.  A name with one is
compared by what stands in front of it, with the names of whatever bucket the hash of all its
bytes selects.
-/
import RedisCore.DictTypes
import RedisCore.Dict.Refine
import Mathlib.Data.List.TakeWhile

namespace RedisCore

variable {α β : Type} {t t' : DictType α}

/-! ## Two types with the same hash function -/

theorem rehashLoop_congr (h : t.hashFunction = t'.hashFunction) : ∀ (fuel : Nat) (d : Dict α β)
    (idx : Nat) (n visits : Int), rehashLoop t fuel d idx n visits = rehashLoop t' fuel d idx n visits := by
  have hpush : ∀ (ht : Dictht α β) (e : DictEntry α β), pushRehashed t ht e = pushRehashed t' ht e := by
    intro ht e
    simp only [pushRehashed, Dictht.index, h]
  have hmove : ∀ (d : Dict α β) (idx : Nat), moveBucket t d idx = moveBucket t' d idx := by
    intro d idx
    simp only [moveBucket, funext fun ht => funext fun e => hpush ht e]
  intro fuel
  induction fuel with
  | zero => intro d idx n visits; rfl
  | succ fuel ih =>
      intro d idx n visits
      rw [rehashLoop, rehashLoop]
      simp only [hmove, ih]

/-- Rehashing does not compare keys. -/
theorem rehashStepIfNeeded_congr (h : t.hashFunction = t'.hashFunction) (d : Dict α β) :
    rehashStepIfNeeded t d = rehashStepIfNeeded t' d := by
  unfold rehashStepIfNeeded dictRehashStep dictRehash
  simp only [rehashLoop_congr h]

theorem chainFind_congr {key : α} : ∀ {chain : List (DictEntry α β)},
    (∀ e ∈ chain, t.keyCompare key e.key = t'.keyCompare key e.key) →
      chainFind t key chain = chainFind t' key chain := by
  intro chain
  induction chain with
  | nil => intro _; rfl
  | cons e chain ih =>
      intro h
      have htail := ih (fun x hx => h x (by simp [hx]))
      unfold chainFind at htail ⊢
      rw [List.findIdx?_cons, List.findIdx?_cons, h e (by simp), htail]

/-- The search compares the key with keys that are there. -/
theorem locate_congr (h : t.hashFunction = t'.hashFunction) {d : Dict α β} {key : α}
    (hcmp : ∀ e ∈ d.entries, t.keyCompare key e.key = t'.keyCompare key e.key) :
    locate t d key = locate t' d key := by
  have hidx : ∀ ht : Dictht α β, ht.index t key = ht.index t' key := by
    intro ht
    simp only [Dictht.index, h]
  have h₀ : chainFind t key (d.ht0.chain (d.ht0.index t' key)) =
      chainFind t' key (d.ht0.chain (d.ht0.index t' key)) :=
    chainFind_congr (fun e he => hcmp e
      (List.mem_append.mpr (Or.inl (Dictht.mem_entries.mpr ⟨_, he⟩))))
  have h₁ : chainFind t key (d.ht1.chain (d.ht1.index t' key)) =
      chainFind t' key (d.ht1.chain (d.ht1.index t' key)) :=
    chainFind_congr (fun e he => hcmp e
      (List.mem_append.mpr (Or.inr (Dictht.mem_entries.mpr ⟨_, he⟩))))
  unfold locate
  rw [hidx, hidx, h₀, h₁]

/-- An insertion compares the key with keys that are there. -/
theorem dictAddRaw_congr (h : t.hashFunction = t'.hashFunction) {canResize : Bool} {d d' : Dict α β}
    {key : α} {junk : β} (hexp : dictExpandIfNeeded canResize (rehashStepIfNeeded t d) = some d')
    (hcmp : ∀ e ∈ d'.entries, t.keyCompare key e.key = t'.keyCompare key e.key) :
    dictAddRaw t canResize d key junk = dictAddRaw t' canResize d key junk := by
  have hexp' : dictExpandIfNeeded canResize (rehashStepIfNeeded t' d) = some d' := by
    rw [← rehashStepIfNeeded_congr h, hexp]
  rw [dictAddRaw_eq canResize key junk hexp, dictAddRaw_eq canResize key junk hexp',
    locate_congr h hcmp]
  simp only [Dictht.index, h]

/-! ## The bucket of a key -/

/-- The entry stands in a bucket that is searched for the key. -/
def Meets (t : DictType α) (d : Dict α β) (key : α) (e : DictEntry α β) : Prop :=
  e ∈ d.ht0.chain (d.ht0.index t key) ∨
    (dictIsRehashing d = true ∧ e ∈ d.ht1.chain (d.ht1.index t key))

theorem mem_entries_of_meets {d : Dict α β} {key : α} {e : DictEntry α β} (h : Meets t d key e) :
    e ∈ d.entries := by
  rw [Dict.entries, List.mem_append, Dictht.mem_entries, Dictht.mem_entries]
  rcases h with h | ⟨_, h⟩
  · exact Or.inl ⟨_, h⟩
  · exact Or.inr ⟨_, h⟩

/-- **The search**, with nothing known of the hash function, finds what compares equal in these
buckets. -/
theorem locate_meets (t : DictType α) (d : Dict α β) (key : α) :
    match locate t d key with
    | none => ∀ e, Meets t d key e → t.keyCompare key e.key = false
    | some r => ∃ e, entryAt d r = some e ∧ Meets t d key e ∧ t.keyCompare key e.key = true := by
  unfold locate
  cases h₀ : chainFind t key (d.ht0.chain (d.ht0.index t key)) with
  | some p =>
      obtain ⟨e, he, hk⟩ := chainFind_some h₀
      exact ⟨e, he, Or.inl (List.mem_of_getElem? he), hk⟩
  | none =>
      have hfirst := chainFind_none h₀
      cases hr : dictIsRehashing d with
      | false =>
          rintro e (he | ⟨hr', _⟩)
          · exact hfirst e he
          · exact absurd (hr.symm.trans hr') (by simp)
      | true =>
          cases h₁ : chainFind t key (d.ht1.chain (d.ht1.index t key)) with
          | none =>
              rintro e (he | ⟨_, he⟩)
              · exact hfirst e he
              · exact chainFind_none h₁ e he
          | some p =>
              obtain ⟨e, he, hk⟩ := chainFind_some h₁
              exact ⟨e, he, Or.inr ⟨hr, List.mem_of_getElem? he⟩, hk⟩

/-! ## The table -/

/-- `lookupCommand`. -/
def lookupCommand (seed : UInt32) (commands : Dict ShortSds β) (name : ShortSds) :
    Dict ShortSds β × Option β :=
  dictFetchValue (commandTableDictType seed) commands name

/-- The names of `redisCommandTable`. -/
def redisCommandTable : List ShortSds :=
  [⟨cstr "get", by decide⟩, ⟨cstr "set", by decide⟩, ⟨cstr "del", by decide⟩]

/-- The loop of `populateCommandTable`; the value of a name is where it is in the table. -/
def populateLoop (seed : UInt32) (junk : Nat) :
    List (ShortSds × Nat) → Dict ShortSds Nat → Option (Dict ShortSds Nat)
  | [], commands => some commands
  | (name, j) :: table, commands =>
      match dictAdd (commandTableDictType seed) true commands name j junk with
      | (commands, true) => populateLoop seed junk table commands
      -- the assertion fails
      | (_, false) => none

/-- `populateCommandTable`, as far as `server.commands` goes. -/
def populateCommandTable (seed : UInt32) (junk : Nat) : Option (Dict ShortSds Nat) :=
  populateLoop seed junk redisCommandTable.zipIdx dictCreate

/-- Names compared over their whole length. -/
def wholeNameType (seed : UInt32) : DictType ShortSds where
  hashFunction := (commandTableDictType seed).hashFunction
  keyCompare key1 key2 := strcaseEq key1.val key2.val

theorem wholeNameType_hash (seed : UInt32) :
    (commandTableDictType seed).hashFunction = (wholeNameType seed).hashFunction := by
  simp only [wholeNameType]

theorem wholeNameType_lawful (seed : UInt32) : (wholeNameType seed).Lawful where
  refl := fun a => by simp [wholeNameType, strcaseEq]
  symm := fun h => by
    simp only [wholeNameType, strcaseEq, decide_eq_true_eq] at h ⊢
    exact h.symm
  trans := fun h₁ h₂ => by
    simp only [wholeNameType, strcaseEq, decide_eq_true_eq] at h₁ h₂ ⊢
    exact h₁.trans h₂
  hash := by
    intro a b h
    have hsame : strcaseEq a.val b.val = true := h
    rw [← wholeNameType_hash]
    exact (@hash_eq_iff a b).mpr (sameSum_of_strcaseEq hsame) seed

/-- A table with these commands; their names are C strings. -/
structure CommandTable (seed : UInt32) (registered : List (ShortSds × β))
    (commands : Dict ShortSds β) : Prop where
  inv : Inv (wholeNameType seed) commands
  entries : (commands.entries.map (fun e => (e.key, e.val))).Perm registered
  plain : ∀ e ∈ commands.entries, 0 ∉ e.key.val

/-! ## Names as C strings -/

theorem cstring_of_plain {s : Bytes} (h : 0 ∉ s) : cstring s = s := by
  refine List.takeWhile_eq_self_iff.mpr ?_
  intro c hc
  exact decide_eq_true (fun h0 => h (h0 ▸ hc))

theorem lower_eq_zero {c : UInt8} : lower c = 0 ↔ c = 0 := by
  unfold lower
  constructor
  · intro h
    split at h
    · next hc =>
        have hadd := congrArg UInt8.toNat h
        rw [UInt8.toNat_add] at hadd
        have h₁ := UInt8.le_iff_toNat_le.mp hc.1
        have h₂ := UInt8.le_iff_toNat_le.mp hc.2
        simp only [UInt8.reduceToNat] at hadd h₁ h₂
        omega
    · exact h
  · rintro rfl
    rfl

/-- A NUL byte stays one. -/
theorem zero_mem_of_strcaseEq {s t : Bytes} (h : strcaseEq s t = true) (h0 : 0 ∈ s) : 0 ∈ t := by
  have hmap : s.map lower = t.map lower := by simpa [strcaseEq] using h
  have hmem : (0 : UInt8) ∈ t.map lower := by
    rw [← hmap]
    exact List.mem_map.mpr ⟨0, h0, rfl⟩
  obtain ⟨c, hc, hl⟩ := List.mem_map.mp hmem
  rw [lower_eq_zero.mp hl] at hc
  exact hc

/-- A registered name is compared with what stands in front of the first NUL byte. -/
theorem keyCompare_plain (seed : UInt32) {name key : ShortSds} (h : 0 ∉ key.val) :
    (commandTableDictType seed).keyCompare name key = strcaseEq (cstring name.val) key.val := by
  simp only [commandTableDictType, dictSdsKeyCaseCompare, cstring_of_plain h]

/-! ## Lookups -/

variable {seed : UInt32} {registered : List (ShortSds × β)} {commands : Dict ShortSds β}

/-- A lookup leaves the commands as they are. -/
theorem CommandTable.step (h : CommandTable seed registered commands) :
    CommandTable seed registered (rehashStepIfNeeded (commandTableDictType seed) commands) := by
  have hcongr := rehashStepIfNeeded_congr (wholeNameType_hash seed) commands
  have hsame := rehashStepIfNeeded_spec (wholeNameType_lawful seed) h.inv
  rw [← hcongr] at hsame
  exact ⟨hsame.inv, (hsame.perm.map _).trans h.entries,
    fun e he => h.plain e (hsame.perm.mem_iff.mp he)⟩

/-- The commands that are found are those of the table. -/
theorem CommandTable.mem (h : CommandTable seed registered commands) {key : ShortSds} {cmd : β} :
    (key, cmd) ∈ registered ↔ ⟨key, cmd⟩ ∈ commands.entries := by
  rw [← h.entries.mem_iff, List.mem_map]
  constructor
  · rintro ⟨⟨key', val⟩, he, heq⟩
    cases heq
    exact he
  · intro he
    exact ⟨_, he, rfl⟩

/-- What a name is looked up to, from the search. -/
theorem lookupCommand_eq (h : CommandTable seed registered commands) (name : ShortSds) :
    (lookupCommand seed commands name).2 =
      (locate (commandTableDictType seed)
        (rehashStepIfNeeded (commandTableDictType seed) commands) name).bind
        (dictGetVal (rehashStepIfNeeded (commandTableDictType seed) commands)) := by
  unfold lookupCommand dictFetchValue
  by_cases hu : commands.ht0.used + commands.ht1.used = 0
  · have hnil : commands.entries = [] :=
      List.eq_nil_of_length_eq_zero ((dictSize_eq h.inv).symm.trans hu)
    have hfind : dictFind (commandTableDictType seed) commands name = (commands, none) := by
      rw [dictFind, if_pos hu]
    rw [hfind]
    have hnone := locate_meets (commandTableDictType seed)
      (rehashStepIfNeeded (commandTableDictType seed) commands) name
    cases hl : locate (commandTableDictType seed)
        (rehashStepIfNeeded (commandTableDictType seed) commands) name with
    | none => rfl
    | some r =>
        rw [hl] at hnone
        obtain ⟨e, he, _⟩ := hnone
        have hmem := mem_entries_of_entryAt he
        have hcmd := h.step.mem.mpr hmem
        rw [h.mem, hnil] at hcmd
        exact absurd hcmd List.not_mem_nil
  · rw [dictFind_eq hu]

/-- **A name without a NUL byte** is found where it is registered. -/
theorem lookupCommand_plain (h : CommandTable seed registered commands) {name : ShortSds}
    (hname : 0 ∉ name.val) (cmd : β) : (lookupCommand seed commands name).2 = some cmd ↔
      ∃ p ∈ registered, strcaseEq name.val p.1.val = true ∧ p.2 = cmd := by
  have hstep := h.step
  have hcmp : ∀ e ∈ (rehashStepIfNeeded (commandTableDictType seed) commands).entries,
      (commandTableDictType seed).keyCompare name e.key =
        (wholeNameType seed).keyCompare name e.key := by
    intro e he
    rw [keyCompare_plain seed (hstep.plain e he), cstring_of_plain hname]
    rfl
  have hfound := locate_found (wholeNameType_lawful seed) hstep.inv name
  rw [lookupCommand_eq h, locate_congr (wholeNameType_hash seed) hcmp]
  cases hl : locate (wholeNameType seed)
      (rehashStepIfNeeded (commandTableDictType seed) commands) name with
  | none =>
      rw [hl] at hfound
      constructor
      · intro hnone
        exact absurd hnone (by simp)
      · rintro ⟨⟨key, val⟩, hmem, hsame, _⟩
        have := hfound _ (hstep.mem.mp hmem)
        exact absurd (hsame.symm.trans this) (by simp)
  | some r =>
      rw [hl] at hfound
      obtain ⟨e, he, hsame⟩ := hfound
      have hmem := mem_entries_of_entryAt he
      rw [Option.bind_some, dictGetVal, he, Option.map_some, Option.some.injEq]
      constructor
      · rintro rfl
        exact ⟨(e.key, e.val), hstep.mem.mpr hmem, hsame, rfl⟩
      · rintro ⟨⟨key, val⟩, hp, hkey, rfl⟩
        -- no two registered names are the same
        have hlaw := wholeNameType_lawful seed
        have heq := eq_of_distinct hlaw hstep.inv.distinct hmem (hstep.mem.mp hp)
          (hlaw.trans (hlaw.symm hsame) hkey)
        rw [heq]

/-- **A name with a NUL byte** is found where a registered name that it begins with stands in a
bucket of its hash. -/
theorem lookupCommand_nul (h : CommandTable seed registered commands) {name : ShortSds}
    (hname : 0 ∈ name.val) :
    (∀ cmd, (lookupCommand seed commands name).2 = some cmd ↔
      ∃ p ∈ registered, strcaseEq name.val p.1.val = true ∧ p.2 = cmd) ↔
    ∀ e, Meets (commandTableDictType seed)
      (rehashStepIfNeeded (commandTableDictType seed) commands) name e →
      strcaseEq (cstring name.val) e.key.val = false := by
  have hstep := h.step
  -- no registered name has a NUL byte
  have hnone : ∀ cmd, ¬∃ p ∈ registered, strcaseEq name.val p.1.val = true ∧ p.2 = cmd := by
    rintro cmd ⟨⟨key, val⟩, hp, hsame, _⟩
    exact h.plain _ (h.mem.mp hp) (zero_mem_of_strcaseEq hsame hname)
  have hmeets := locate_meets (commandTableDictType seed)
    (rehashStepIfNeeded (commandTableDictType seed) commands) name
  rw [lookupCommand_eq h]
  cases hl : locate (commandTableDictType seed)
      (rehashStepIfNeeded (commandTableDictType seed) commands) name with
  | none =>
      rw [hl] at hmeets
      constructor
      · intro _ e he
        rw [← keyCompare_plain seed (hstep.plain e (mem_entries_of_meets he))]
        exact hmeets e he
      · intro _ cmd
        exact ⟨fun hsome => absurd hsome (by simp), fun hex => absurd hex (hnone cmd)⟩
  | some r =>
      rw [hl] at hmeets
      obtain ⟨e, he, hin, hcmp⟩ := hmeets
      have hplain := hstep.plain e (mem_entries_of_meets hin)
      rw [keyCompare_plain seed hplain] at hcmp
      constructor
      · intro hall
        refine absurd ((hall e.val).mp ?_) (hnone e.val)
        rw [Option.bind_some, dictGetVal, he, Option.map_some]
      · intro hall
        exact absurd (hcmp.symm.trans (hall e hin)) (by simp)

/-! ## Populating the table -/

/-- There is no table yet, or the one a dict begins with. -/
def FirstTable (d : Dict α β) : Prop :=
  d.rehashidx = none ∧ (d.ht0.size = 0 ∨ d.ht0.size = DICT_HT_INITIAL_SIZE)

/-- The first table is big enough for a fourth entry. -/
theorem dictExpandIfNeeded_first {d : Dict α β} (h : Inv t d) (hf : FirstTable d)
    (hu : d.ht0.used < DICT_HT_INITIAL_SIZE) : ∃ d', dictExpandIfNeeded true d = some d' ∧
      d'.rehashidx = none ∧ d'.ht0.size = DICT_HT_INITIAL_SIZE ∧ d'.ht1 = d.ht1 := by
  obtain ⟨hidle, hsize⟩ := hf
  have hnr : dictIsRehashing d = false := by simp [dictIsRehashing, hidle]
  rcases hsize with hz | hfour
  · have hnil := h.ht0.entries_nil hz
    have hused : d.ht0.used = 0 := by rw [h.ht0.used, Dictht.entries, hnil]; rfl
    have hpower : dictNextPower DICT_HT_INITIAL_SIZE = 4 := by decide
    refine ⟨{ d with ht0 := ⟨List.replicate 4 [], 4, 3, 0⟩ }, ?_, hidle, rfl, rfl⟩
    simp [dictExpandIfNeeded, dictExpand, hnr, hz, hused, hpower, hnil]
  · refine ⟨d, ?_, hidle, hfour, rfl⟩
    rw [dictExpandIfNeeded, hnr, if_neg (by simp), if_neg (by rw [hfour]; decide), if_neg (by omega)]

/-- An insertion changes one of the tables, after the expansion, and no size. -/
theorem dictAddRaw_sizes {canResize : Bool} {d d' : Dict α β} (key : α) (junk : β)
    (hexp : dictExpandIfNeeded canResize (rehashStepIfNeeded t d) = some d') :
    (dictAddRaw t canResize d key junk).1.rehashidx = d'.rehashidx ∧
      (dictAddRaw t canResize d key junk).1.ht0.size = d'.ht0.size ∧
      (dictAddRaw t canResize d key junk).1.ht1.size = d'.ht1.size := by
  rw [dictAddRaw_eq canResize key junk hexp]
  split
  · split <;> exact ⟨rfl, rfl, rfl⟩
  · exact ⟨rfl, rfl, rfl⟩

theorem firstTable_dictSetVal {d : Dict α β} {r : Ref} {v : β} :
    FirstTable (dictSetVal d r v) ↔ FirstTable d := by
  unfold dictSetVal
  split <;> exact Iff.rfl

/-- **One command more**, as long as the first table is big enough. -/
theorem CommandTable.add (h : CommandTable seed registered commands) (hf : FirstTable commands)
    (hlen : registered.length < DICT_HT_INITIAL_SIZE) {name : ShortSds} (hname : 0 ∉ name.val)
    (hnew : ∀ p ∈ registered, strcaseEq name.val p.1.val = false) (cmd junk : β) :
    ∃ commands', dictAdd (commandTableDictType seed) true commands name cmd junk =
        (commands', true) ∧
      CommandTable seed ((name, cmd) :: registered) commands' ∧ FirstTable commands' := by
  have hlaw := wholeNameType_lawful seed
  have hsize : commands.entries.length = registered.length := by
    rw [← h.entries.length_eq, List.length_map]
  have hused : commands.ht0.used < DICT_HT_INITIAL_SIZE := by
    have := dictSize_eq h.inv
    unfold dictSize at this
    omega
  have hstill : rehashStepIfNeeded (wholeNameType seed) commands = commands := by
    simp [rehashStepIfNeeded, dictIsRehashing, hf.1]
  obtain ⟨d', hexp, hidle, hfour, hht1⟩ := dictExpandIfNeeded_first h.inv hf hused
  have hone : d'.ht1.size = 0 := by rw [hht1]; exact h.inv.idle.mp hf.1
  have hexp' : dictExpandIfNeeded true (rehashStepIfNeeded (wholeNameType seed) commands) =
      some d' := by rw [hstill, hexp]
  obtain ⟨hri, h₀, h₁⟩ := dictAddRaw_sizes name junk hexp'
  have hinitial : DICT_HT_INITIAL_SIZE = 4 := rfl
  have hsmall : Small (dictAddRaw (wholeNameType seed) true commands name junk).1 :=
    ⟨by rw [h₀, hfour, hinitial]; omega, by rw [h₁, hone]; omega⟩
  -- the names that are there have no NUL byte either
  have hsame := (dictExpandIfNeeded_spec true h.inv hexp
    ⟨by rw [hfour, hinitial]; omega, by rw [hone]; omega⟩).1
  have hraw : dictAddRaw (commandTableDictType seed) true commands name junk =
      dictAddRaw (wholeNameType seed) true commands name junk := by
    refine dictAddRaw_congr (wholeNameType_hash seed)
      (show dictExpandIfNeeded true (rehashStepIfNeeded (commandTableDictType seed) commands)
        = some d' from ?_) ?_
    · rw [rehashStepIfNeeded_congr (wholeNameType_hash seed), hstill, hexp]
    · intro e he
      rw [keyCompare_plain seed (h.plain e (hsame.perm.mem_iff.mp he)), cstring_of_plain hname]
      rfl
  obtain ⟨hinv, hresult⟩ := dictAddRaw_spec hlaw true h.inv name junk hsmall
  rw [dictAdd_eq, hraw]
  cases hr : (dictAddRaw (wholeNameType seed) true commands name junk).2 with
  | none =>
      rw [hr] at hresult
      obtain ⟨_, e, he, hcmp⟩ := hresult
      have hfalse := hnew _ (h.mem.mpr he)
      exact absurd (hcmp.symm.trans hfalse) (by simp)
  | some r =>
      rw [hr] at hresult
      obtain ⟨hperm, hat, _⟩ := hresult
      obtain ⟨rest, hold, hinv', hset⟩ := dictSetVal_spec hlaw hinv hat cmd
      have hrest : rest.Perm commands.entries := (hold.symm.trans hperm).cons_inv
      have hall := hset.trans (hrest.cons _)
      refine ⟨_, rfl, ⟨hinv', ?_, ?_⟩, ?_⟩
      · exact (hall.map _).trans (h.entries.cons _)
      · intro e he
        rcases List.mem_cons.mp (hall.mem_iff.mp he) with rfl | he
        · exact hname
        · exact h.plain e he
      · exact firstTable_dictSetVal.mpr ⟨hri.trans hidle, Or.inr (h₀.trans hfour)⟩

/-- The loop registers every name it is given. -/
theorem populateLoop_spec (seed : UInt32) (junk : Nat) : ∀ (table registered : List (ShortSds × Nat))
    (commands : Dict ShortSds Nat), CommandTable seed registered commands → FirstTable commands →
    (registered ++ table).length ≤ DICT_HT_INITIAL_SIZE →
    (∀ p ∈ table, 0 ∉ p.1.val) →
    (registered ++ table).Pairwise (fun p q => strcaseEq q.1.val p.1.val = false) →
    ∃ commands', populateLoop seed junk table commands = some commands' ∧
      CommandTable seed (registered ++ table) commands' := by
  intro table
  induction table with
  | nil =>
      intro registered commands h _ _ _ _
      exact ⟨commands, rfl, by rwa [List.append_nil]⟩
  | cons p table ih =>
      intro registered commands h hf hlen hplain hnew
      obtain ⟨name, j⟩ := p
      have hroom : registered.length < DICT_HT_INITIAL_SIZE := by
        rw [List.length_append, List.length_cons] at hlen
        omega
      obtain ⟨commands₁, hadd, h₁, hf₁⟩ := h.add hf hroom (hplain _ (by simp))
        (fun q hq => (List.pairwise_append.mp hnew).2.2 q hq (name, j) (by simp)) j junk
      have hregistered : ((name, j) :: registered).Perm (registered ++ [(name, j)]) :=
        (List.perm_append_singleton _ _).symm
      have happend : registered ++ (name, j) :: table = registered ++ [(name, j)] ++ table := by
        simp
      rw [happend] at hlen hnew ⊢
      obtain ⟨commands', hloop, h'⟩ := ih _ commands₁
        ⟨h₁.inv, h₁.entries.trans hregistered, h₁.plain⟩ hf₁ hlen
        (fun q hq => hplain q (by simp [hq])) hnew
      refine ⟨commands', ?_, h'⟩
      rw [populateLoop, hadd]
      exact hloop

/-- **`populateCommandTable`** gives the table of the server, whatever the seed. -/
theorem populateCommandTable_spec (seed : UInt32) (junk : Nat) :
    ∃ commands, populateCommandTable seed junk = some commands ∧
      CommandTable seed redisCommandTable.zipIdx commands := by
  have hempty : CommandTable seed ([] : List (ShortSds × Nat)) dictCreate :=
    ⟨inv_dictCreate, List.Perm.refl _, fun e he => absurd he List.not_mem_nil⟩
  exact populateLoop_spec seed junk redisCommandTable.zipIdx [] dictCreate hempty
    ⟨rfl, Or.inl rfl⟩ (by decide) (by decide) (by decide)

/-! ## Hash and comparison -/

/-- **Hash and comparison of every dict type.**  Keys that compare equal have equal hashes where
they are strings or objects, whatever bytes they have and however they are encoded.  For two
command names this is so for every seed exactly where their C strings differ or the bytes
behind the NUL bytes do not change the sum.  In every state of a table of commands a lookup
finds a name exactly where it is registered, unless the name has a NUL byte and begins with a
registered name that stands in a bucket of its hash. -/
theorem dict_types_agree :
    (∀ (seed : UInt32) (o₁ o₂ : Robj), o₁.Ok → o₂.Ok → dictEncObjKeyCompare o₁ o₂ = some true →
      ∃ hash, dictEncObjHash seed o₁ = some hash ∧ dictEncObjHash seed o₂ = some hash) ∧
    (∀ (seed : UInt32) (o₁ o₂ : Robj), dictObjKeyCompare o₁ o₂ = some true →
      ∃ hash, dictObjHash seed o₁ = some hash ∧ dictObjHash seed o₂ = some hash) ∧
    (∀ (seed : UInt32) (s₁ s₂ : Bytes), dictSdsKeyCompare s₁ s₂ = some true →
      dictSdsHash seed s₁ = dictSdsHash seed s₂) ∧
    (∀ k₁ k₂ : ShortSds, (∀ seed, (commandTableDictType seed).keyCompare k₁ k₂ = true →
      (commandTableDictType seed).hashFunction k₁ = (commandTableDictType seed).hashFunction k₂) ↔
        strcaseEq (cstring k₁.val) (cstring k₂.val) = false ∨ SameSum k₁.val k₂.val) ∧
    ∀ (seed : UInt32) (registered : List (ShortSds × β)) (commands : Dict ShortSds β),
      CommandTable seed registered commands → ∀ name : ShortSds,
        ((∀ cmd, (lookupCommand seed commands name).2 = some cmd ↔
          ∃ p ∈ registered, strcaseEq name.val p.1.val = true ∧ p.2 = cmd) ↔
        (0 ∉ name.val ∨ ∀ e, Meets (commandTableDictType seed)
          (rehashStepIfNeeded (commandTableDictType seed) commands) name e →
          strcaseEq (cstring name.val) e.key.val = false)) := by
  refine ⟨fun seed o₁ o₂ h₁ h₂ h => dictEncObj_agree seed h₁ h₂ h,
    fun seed o₁ o₂ h => dictObj_agree seed h, fun seed s₁ s₂ h => dictSds_agree seed h, ?_, ?_⟩
  · intro k₁ k₂
    constructor
    · intro h
      cases hcmp : strcaseEq (cstring k₁.val) (cstring k₂.val) with
      | false => exact Or.inl rfl
      | true => exact Or.inr (hash_eq_iff.mp (fun seed => h seed hcmp))
    · rintro (hdiffer | hsum) seed hcmp
      · exact absurd (hdiffer.symm.trans hcmp) (by simp)
      · exact hash_eq_iff.mpr hsum seed
  · intro seed registered commands h name
    by_cases hname : 0 ∈ name.val
    · rw [lookupCommand_nul h hname]
      constructor
      · exact Or.inr
      · rintro (hplain | hall)
        · exact absurd hname hplain
        · exact hall
    · exact ⟨fun _ => Or.inl hname, fun _ => lookupCommand_plain h hname⟩

/-- `GET` in the table of the server. -/
theorem dict_types_agree_get : ∃ commands, populateCommandTable 5381 0 = some commands ∧
    ((∀ cmd, (lookupCommand 5381 commands ⟨cstr "GET", by decide⟩).2 = some cmd ↔
      ∃ p ∈ redisCommandTable.zipIdx, strcaseEq (cstr "GET") p.1.val = true ∧ p.2 = cmd) ↔
    (0 ∉ cstr "GET" ∨ ∀ e, Meets (commandTableDictType 5381)
      (rehashStepIfNeeded (commandTableDictType 5381) commands) ⟨cstr "GET", by decide⟩ e →
      strcaseEq (cstring (cstr "GET")) e.key.val = false)) := by
  obtain ⟨commands, hpop, htable⟩ := populateCommandTable_spec 5381 0
  exact ⟨commands, hpop, dict_types_agree.2.2.2.2 5381 _ commands htable ⟨cstr "GET", by decide⟩⟩

/-- `get` with a NUL byte behind it. -/
def getNul : ShortSds := ⟨cstr "get" ++ [0], by decide⟩

/-- The name `get\0` compares equal to `get` and has another hash, and the server finds `get` when
it is asked for it. -/
theorem getNul_found :
    (¬∀ (seed : UInt32) (k₁ k₂ : ShortSds), (commandTableDictType seed).keyCompare k₁ k₂ = true →
      (commandTableDictType seed).hashFunction k₁ = (commandTableDictType seed).hashFunction k₂) ∧
    ¬∀ (seed : UInt32) (commands : Dict ShortSds Nat) (name : ShortSds),
      populateCommandTable seed 0 = some commands →
      ((lookupCommand seed commands name).2.isSome = true ↔
        ∃ p ∈ redisCommandTable, strcaseEq name.val p.val = true) := by
  constructor
  · intro h
    exact absurd (h 5381 getNul ⟨cstr "get", by decide⟩ (by decide +kernel)) (by decide +kernel)
  · intro h
    obtain ⟨commands, hpop⟩ : ∃ commands, populateCommandTable 5381 0 = some commands :=
      Option.isSome_iff_exists.mp (by decide +kernel)
    have hfound : ((populateCommandTable 5381 0).bind (fun commands =>
        (lookupCommand 5381 commands getNul).2)).isSome = true := by decide +kernel
    rw [hpop, Option.bind_some] at hfound
    exact absurd ((h 5381 commands getNul hpop).mp hfound) (by decide)

end RedisCore
