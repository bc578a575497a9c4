/-
# `RedisCore.SetCommand` — the options and the deadline of SET (t_string.c)

The words after the value are a small language, and `setCommand` accepts exactly that, if a word is
read as C reads a string: up to the first zero byte.

The deadline is computed with the arithmetic of `long long` and no check, so the time to live that
is asked for is kept if the deadline is in range, and otherwise the key gets another one.
-/
import RedisCore.Keyspace
import Mathlib.Data.List.Induction
import Mathlib.Data.List.Induction

namespace RedisCore

namespace SetCommand

open CInt

/-! ## The words -/

/-- An option, with its argument. -/
inductive Word
  | nx
  | xx
  | ex (n : Arg)
  | px (n : Arg)

/-- A letter in lower case. -/
def lowerCase (c : UInt8) : UInt8 := if 65 ≤ c ∧ c ≤ 90 then c + 32 else c

/-- An argument as a word, in lower case. -/
def whole (a : Arg) : Bytes := a.s.map lowerCase

/-- What C reads of an argument, in lower case. -/
def word (a : Arg) : Bytes := (a.s.takeWhile (· ≠ 0)).map lowerCase

/-- The arguments, of which `spells` gives the words, are these options. -/
inductive Reads (spells : Arg → Bytes) : List Arg → List Word → Prop
  | nil : Reads spells [] []
  | nx {a : Arg} {as : List Arg} {ws : List Word} :
      spells a = cstr "nx" → Reads spells as ws → Reads spells (a :: as) (.nx :: ws)
  | xx {a : Arg} {as : List Arg} {ws : List Word} :
      spells a = cstr "xx" → Reads spells as ws → Reads spells (a :: as) (.xx :: ws)
  | ex {a n : Arg} {as : List Arg} {ws : List Word} :
      spells a = cstr "ex" → Reads spells as ws → Reads spells (a :: n :: as) (.ex n :: ws)
  | px {a n : Arg} {as : List Arg} {ws : List Word} :
      spells a = cstr "px" → Reads spells as ws → Reads spells (a :: n :: as) (.px n :: ws)

/-- What options ask for: the flags, the expire argument and its unit. -/
abbrev Asked := SetFlags × Option Arg × TimeUnit

/-- One more option. -/
def Asked.add (r : Asked) : Word → Asked
  | .nx => ({ r.1 with nx := true }, r.2)
  | .xx => ({ r.1 with xx := true }, r.2)
  | .ex n => ({ r.1 with ex := true }, some n, .seconds)
  | .px n => ({ r.1 with px := true }, some n, .milliseconds)

/-- Neither NX and XX nor EX and PX together. -/
def Compatible (flags : SetFlags) : Prop :=
  ¬ (flags.nx = true ∧ flags.xx = true) ∧ ¬ (flags.ex = true ∧ flags.px = true)

theorem lowerCase_eq {c lo up : UInt8} (hlo : 97 ≤ lo.toNat ∧ lo.toNat ≤ 122)
    (hup : up.toNat = lo.toNat - 32) : lowerCase c = lo ↔ c = lo ∨ c = up := by
  unfold lowerCase
  simp only [← UInt8.toNat_inj, UInt8.le_iff_toNat_le, hup]
  have h65 : (65 : UInt8).toNat = 65 := rfl
  have h90 : (90 : UInt8).toNat = 90 := rfl
  rw [h65, h90]
  split
  · rw [UInt8.toNat_add]
    have h32 : (32 : UInt8).toNat = 32 := rfl
    omega
  · omega

/-- Two letters and the terminator. -/
theorem letters_iff (s : Bytes) {lo₀ up₀ lo₁ up₁ : UInt8}
    (hlo₀ : 97 ≤ lo₀.toNat ∧ lo₀.toNat ≤ 122) (hup₀ : up₀.toNat = lo₀.toNat - 32)
    (hlo₁ : 97 ≤ lo₁.toNat ∧ lo₁.toNat ≤ 122) (hup₁ : up₁.toNat = lo₁.toNat - 32) :
    ((s.getD 0 0 = lo₀ ∨ s.getD 0 0 = up₀) ∧ (s.getD 1 0 = lo₁ ∨ s.getD 1 0 = up₁)) ∧
      s.getD 2 0 = 0 ↔ (s.takeWhile (· ≠ 0)).map lowerCase = [lo₀, lo₁] := by
  have hz : ∀ {lo up : UInt8}, 97 ≤ lo.toNat ∧ lo.toNat ≤ 122 → up.toNat = lo.toNat - 32 →
      ¬ (0 = lo ∨ 0 = up) := by
    intro lo up hlo hup h
    have h0 : (0 : UInt8).toNat = 0 := rfl
    simp only [← UInt8.toNat_inj, h0] at h
    omega
  have hz₀ := hz hlo₀ hup₀
  have hz₁ := hz hlo₁ hup₁
  match s with
  | [] => simpa using fun h => absurd h hz₀
  | x :: s =>
    by_cases hx : x = 0
    · subst hx
      simpa using fun h => absurd h hz₀
    match s with
    | [] => simpa [hx] using fun _ => not_or.mp hz₁
    | y :: s =>
      by_cases hy : y = 0
      · subst hy
        simpa [hx] using fun _ h => absurd h hz₁
      match s with
      | [] => simp [hx, hy, lowerCase_eq hlo₀ hup₀, lowerCase_eq hlo₁ hup₁]
      | z :: s =>
        by_cases hzz : z = 0
        · subst hzz
          simp [hx, hy, lowerCase_eq hlo₀ hup₀, lowerCase_eq hlo₁ hup₁]
        · simp [hx, hy, hzz]

/-- The test for an option is a comparison of words. -/
theorem isOption_iff (a : Arg) {lo₀ up₀ lo₁ up₁ : UInt8}
    (hlo₀ : 97 ≤ lo₀.toNat ∧ lo₀.toNat ≤ 122) (hup₀ : up₀.toNat = lo₀.toNat - 32)
    (hlo₁ : 97 ≤ lo₁.toNat ∧ lo₁.toNat ≤ 122) (hup₁ : up₁.toNat = lo₁.toNat - 32) :
    a.isOption lo₀ up₀ lo₁ up₁ = true ↔ word a = [lo₀, lo₁] := by
  rw [word, ← letters_iff a.s hlo₀ hup₀ hlo₁ hup₁]
  simp [Arg.isOption, Arg.char]

theorem isOption_nx (a : Arg) : a.isOption 110 78 120 88 = decide (word a = cstr "nx") := by
  rw [Bool.eq_iff_iff, decide_eq_true_iff]
  exact isOption_iff a (by decide) (by decide) (by decide) (by decide)

theorem isOption_xx (a : Arg) : a.isOption 120 88 120 88 = decide (word a = cstr "xx") := by
  rw [Bool.eq_iff_iff, decide_eq_true_iff]
  exact isOption_iff a (by decide) (by decide) (by decide) (by decide)

theorem isOption_ex (a : Arg) : a.isOption 101 69 120 88 = decide (word a = cstr "ex") := by
  rw [Bool.eq_iff_iff, decide_eq_true_iff]
  exact isOption_iff a (by decide) (by decide) (by decide) (by decide)

theorem isOption_px (a : Arg) : a.isOption 112 80 120 88 = decide (word a = cstr "px") := by
  rw [Bool.eq_iff_iff, decide_eq_true_iff]
  exact isOption_iff a (by decide) (by decide) (by decide) (by decide)

/-! ## The grammar -/

theorem setOptions_nx {a : Arg} (ha : word a = cstr "nx") (rest : List Arg) (r : Asked) :
    setOptions (a :: rest) r.1 r.2.1 r.2.2 =
      if r.1.xx = true then none else
        setOptions rest (r.add .nx).1 (r.add .nx).2.1 (r.add .nx).2.2 := by
  rw [setOptions.eq_def]
  cases hf : r.1.xx with
  | false => simp [isOption_nx, ha, hf, Asked.add]
  | true => cases rest <;> simp +decide [isOption_nx, isOption_xx, isOption_ex, isOption_px, ha, hf]

theorem setOptions_xx {a : Arg} (ha : word a = cstr "xx") (rest : List Arg) (r : Asked) :
    setOptions (a :: rest) r.1 r.2.1 r.2.2 =
      if r.1.nx = true then none else
        setOptions rest (r.add .xx).1 (r.add .xx).2.1 (r.add .xx).2.2 := by
  rw [setOptions.eq_def]
  cases hf : r.1.nx with
  | false => simp +decide [isOption_nx, isOption_xx, ha, hf, Asked.add]
  | true => cases rest <;> simp +decide [isOption_nx, isOption_xx, isOption_ex, isOption_px, ha, hf]

theorem setOptions_ex {a : Arg} (ha : word a = cstr "ex") (n : Arg) (rest : List Arg)
    (r : Asked) :
    setOptions (a :: n :: rest) r.1 r.2.1 r.2.2 =
      if r.1.px = true then none else
        setOptions rest (r.add (.ex n)).1 (r.add (.ex n)).2.1 (r.add (.ex n)).2.2 := by
  rw [setOptions.eq_def]
  cases hf : r.1.px with
  | false => simp +decide [isOption_nx, isOption_xx, isOption_ex, ha, hf, Asked.add]
  | true => simp +decide [isOption_nx, isOption_xx, isOption_ex, isOption_px, ha, hf]

theorem setOptions_px {a : Arg} (ha : word a = cstr "px") (n : Arg) (rest : List Arg)
    (r : Asked) :
    setOptions (a :: n :: rest) r.1 r.2.1 r.2.2 =
      if r.1.ex = true then none else
        setOptions rest (r.add (.px n)).1 (r.add (.px n)).2.1 (r.add (.px n)).2.2 := by
  rw [setOptions.eq_def]
  cases hf : r.1.ex with
  | false => simp +decide [isOption_nx, isOption_xx, isOption_ex, isOption_px, ha, hf, Asked.add]
  | true => simp +decide [isOption_nx, isOption_xx, isOption_ex, isOption_px, ha, hf]

/-- Any other word is an error, and so is EX or PX as the last one. -/
theorem setOptions_other {a : Arg} {rest : List Arg} (hnx : word a ≠ cstr "nx")
    (hxx : word a ≠ cstr "xx")
    (hepx : rest = [] ∨ word a ≠ cstr "ex" ∧ word a ≠ cstr "px") (r : Asked) :
    setOptions (a :: rest) r.1 r.2.1 r.2.2 = none := by
  rw [setOptions.eq_def]
  cases rest with
  | nil => simp [isOption_nx, isOption_xx, hnx, hxx]
  | cons n rest =>
    obtain ⟨hex, hpx⟩ := hepx.resolve_left (List.cons_ne_nil _ _)
    simp [isOption_nx, isOption_xx, isOption_ex, isOption_px, hnx, hxx, hex, hpx]

/-- Flags that are set stay set. -/
theorem compatible_of_add {r : Asked} {w : Word} (h : Compatible (r.add w).1) : Compatible r.1 := by
  obtain ⟨h₁, h₂⟩ := h
  cases w with
  | nx => exact ⟨fun ⟨_, hx⟩ => h₁ ⟨rfl, hx⟩, h₂⟩
  | xx => exact ⟨fun ⟨hn, _⟩ => h₁ ⟨hn, rfl⟩, h₂⟩
  | ex n => exact ⟨h₁, fun ⟨_, hp⟩ => h₂ ⟨rfl, hp⟩⟩
  | px n => exact ⟨h₁, fun ⟨he, _⟩ => h₂ ⟨he, rfl⟩⟩

theorem compatible_of_foldl (ws : List Word) : ∀ {r : Asked},
    Compatible (ws.foldl Asked.add r).1 → Compatible r.1 := by
  induction ws with
  | nil => intro r h; exact h
  | cons w ws ih => intro r h; exact compatible_of_add (ih h)

/-- What the loop accepts, from where it stands. -/
theorem reads_setOptions {opts : List Arg} {ws : List Word} (h : Reads word opts ws) : ∀ {r : Asked},
    Compatible (ws.foldl Asked.add r).1 →
    setOptions opts r.1 r.2.1 r.2.2 = some (ws.foldl Asked.add r) := by
  induction h with
  | nil => intro r _; rfl
  | nx ha _ ih =>
    intro r hc
    have hxx : ¬ r.1.xx = true :=
      fun hx => (compatible_of_foldl _ (r := r.add .nx) hc).1 ⟨rfl, hx⟩
    rw [setOptions_nx ha, if_neg hxx]
    exact ih hc
  | xx ha _ ih =>
    intro r hc
    have hnx : ¬ r.1.nx = true :=
      fun hn => (compatible_of_foldl _ (r := r.add .xx) hc).1 ⟨hn, rfl⟩
    rw [setOptions_xx ha, if_neg hnx]
    exact ih hc
  | ex ha _ ih =>
    intro r hc
    have hpx : ¬ r.1.px = true :=
      fun hp => (compatible_of_foldl _ (r := r.add (.ex _)) hc).2 ⟨rfl, hp⟩
    rw [setOptions_ex ha, if_neg hpx]
    exact ih hc
  | px ha _ ih =>
    intro r hc
    have hex : ¬ r.1.ex = true :=
      fun he => (compatible_of_foldl _ (r := r.add (.px _)) hc).2 ⟨he, rfl⟩
    rw [setOptions_px ha, if_neg hex]
    exact ih hc

/-- The options are read from left to right, an argument with its option. -/
theorem setOptions_reads : ∀ (opts : List Arg) {r r' : Asked}, Compatible r.1 →
    setOptions opts r.1 r.2.1 r.2.2 = some r' →
    ∃ ws, Reads word opts ws ∧ Compatible r'.1 ∧ r' = ws.foldl Asked.add r
  | [], r, r', hc, h => ⟨[], .nil, by cases h; exact hc, by cases h; rfl⟩
  | a :: rest, r, r', hc, h => by
    by_cases hnx : word a = cstr "nx"
    · rw [setOptions_nx hnx] at h
      split at h
      · cases h
      · next hf =>
        obtain ⟨ws, hr, hc', he⟩ := setOptions_reads rest (r := r.add .nx)
          ⟨fun hx => hf hx.2, hc.2⟩ h
        exact ⟨_, .nx hnx hr, hc', he⟩
    by_cases hxx : word a = cstr "xx"
    · rw [setOptions_xx hxx] at h
      split at h
      · cases h
      · next hf =>
        obtain ⟨ws, hr, hc', he⟩ := setOptions_reads rest (r := r.add .xx)
          ⟨fun hx => hf hx.1, hc.2⟩ h
        exact ⟨_, .xx hxx hr, hc', he⟩
    cases rest with
    | nil => rw [setOptions_other hnx hxx (.inl rfl)] at h; cases h
    | cons n rest =>
      by_cases hex : word a = cstr "ex"
      · rw [setOptions_ex hex] at h
        split at h
        · cases h
        · next hf =>
          obtain ⟨ws, hr, hc', he⟩ := setOptions_reads rest (r := r.add (.ex n))
            ⟨hc.1, fun hx => hf hx.2⟩ h
          exact ⟨_, .ex hex hr, hc', he⟩
      by_cases hpx : word a = cstr "px"
      · rw [setOptions_px hpx] at h
        split at h
        · cases h
        · next hf =>
          obtain ⟨ws, hr, hc', he⟩ := setOptions_reads rest (r := r.add (.px n))
            ⟨hc.1, fun hx => hf hx.1⟩ h
          exact ⟨_, .px hpx hr, hc', he⟩
      rw [setOptions_other hnx hxx (.inr ⟨hex, hpx⟩)] at h
      cases h

/-! ## What the words ask for -/

/-- The expire argument of an option, with its unit. -/
def Word.expire : Word → Option (Arg × TimeUnit)
  | .nx | .xx => none
  | .ex n => some (n, .seconds)
  | .px n => some (n, .milliseconds)

/-- NX and XX do not both occur, and neither do EX and PX. -/
def Exclusive (ws : List Word) : Prop :=
  ¬ (.nx ∈ ws ∧ .xx ∈ ws) ∧ ¬ ((∃ n, .ex n ∈ ws) ∧ ∃ n, .px n ∈ ws)

/-- The flags are the words that occur; the expire argument and the unit are those of the last EX
or PX. -/
structure AskedBy (ws : List Word) (r : Asked) : Prop where
  nx : r.1.nx = true ↔ .nx ∈ ws
  xx : r.1.xx = true ↔ .xx ∈ ws
  ex : r.1.ex = true ↔ ∃ n, .ex n ∈ ws
  px : r.1.px = true ↔ ∃ n, .px n ∈ ws
  expire : r.2 = (((ws.filterMap Word.expire).getLast?.map Prod.fst),
    ((ws.filterMap Word.expire).getLast?.map Prod.snd).getD .seconds)

/-- The words of a list, one after the other. -/
def asked (ws : List Word) : Asked := ws.foldl Asked.add (OBJ_SET_NO_FLAGS, none, .seconds)

theorem asked_concat (ws : List Word) (w : Word) : asked (ws ++ [w]) = (asked ws).add w :=
  List.foldl_concat _ _ _ _

theorem askedBy_asked (ws : List Word) : AskedBy ws (asked ws) := by
  induction ws using List.reverseRecOn with
  | nil => constructor <;> simp [asked, OBJ_SET_NO_FLAGS]
  | append_singleton ws w ih =>
    rw [asked_concat]
    obtain ⟨hnx, hxx, hex, hpx, he⟩ := ih
    cases w with
    | nx => constructor <;> simp [Asked.add, Word.expire, hxx, hex, hpx, he]
    | xx => constructor <;> simp [Asked.add, Word.expire, hnx, hex, hpx, he]
    | ex n => constructor <;> simp [Asked.add, Word.expire, hnx, hxx, hpx]
    | px n => constructor <;> simp [Asked.add, Word.expire, hnx, hxx, hex]

/-- The words say everything. -/
theorem AskedBy.unique {ws : List Word} {r r' : Asked} (h : AskedBy ws r) (h' : AskedBy ws r') :
    r = r' := by
  obtain ⟨⟨nx, xx, ex, px⟩, e⟩ := r
  obtain ⟨⟨nx', xx', ex', px'⟩, e'⟩ := r'
  have hnx : nx = nx' := Bool.eq_iff_iff.mpr (h.nx.trans h'.nx.symm)
  have hxx : xx = xx' := Bool.eq_iff_iff.mpr (h.xx.trans h'.xx.symm)
  have hex : ex = ex' := Bool.eq_iff_iff.mpr (h.ex.trans h'.ex.symm)
  have hpx : px = px' := Bool.eq_iff_iff.mpr (h.px.trans h'.px.symm)
  have he : e = e' := h.expire.trans h'.expire.symm
  subst hnx hxx hex hpx he
  rfl

theorem compatible_asked (ws : List Word) : Compatible (asked ws).1 ↔ Exclusive ws := by
  obtain ⟨hnx, hxx, hex, hpx, _⟩ := askedBy_asked ws
  rw [Compatible, Exclusive, hnx, hxx, hex, hpx]

/-- The loop accepts the grammar. -/
theorem setOptions_iff (opts : List Arg) (r : Asked) :
    setOptions opts OBJ_SET_NO_FLAGS none .seconds = some r ↔
      ∃ ws, Reads word opts ws ∧ Exclusive ws ∧ AskedBy ws r := by
  constructor
  · intro h
    obtain ⟨ws, hr, hc, rfl⟩ := setOptions_reads opts
      (r := (OBJ_SET_NO_FLAGS, none, .seconds)) ⟨by decide, by decide⟩ h
    exact ⟨ws, hr, (compatible_asked ws).mp hc, askedBy_asked ws⟩
  · rintro ⟨ws, hr, hx, ha⟩
    rw [ha.unique (askedBy_asked ws)]
    exact reads_setOptions hr (r := (OBJ_SET_NO_FLAGS, none, .seconds))
      ((compatible_asked ws).mpr hx)

/-- `c->argv` as `setCommand` leaves it. -/
def setCommandArgv (name key val : Arg) (opts : List Arg) : List Robj :=
  match setOptions opts OBJ_SET_NO_FLAGS none .seconds with
  | none => name.obj :: key.obj :: val.obj :: opts.map Arg.obj
  | some _ =>
    name.obj :: key.obj :: tryObjectEncoding val.refcount val.obj :: opts.map Arg.obj

/-- **The options of SET.**  For any arguments the options are accepted if and only if they are NX,
XX, EX and PX with their arguments, and exclude each other as they should; then the words decide
what is asked for.  Otherwise the reply is the syntax error, and nothing has changed. -/
theorem setCommand_grammar (env : Env) (st : DbState) (name key val : Arg) (opts : List Arg) :
    (∀ r, setOptions opts OBJ_SET_NO_FLAGS none .seconds = some r ↔
      ∃ ws, Reads word opts ws ∧ Exclusive ws ∧ AskedBy ws r) ∧
    (∀ ws, Reads word opts ws → Exclusive ws → ∃ r, AskedBy ws r ∧
      setCommand env st key.s val opts = setGenericCommand env st r.1 key.s
        (tryObjectEncoding val.refcount val.obj) r.2.1 r.2.2) ∧
    ((¬ ∃ ws, Reads word opts ws ∧ Exclusive ws) →
      setCommand env st key.s val opts = some (st, [.addReply Shared.syntaxerr]) ∧
      setCommandArgv name key val opts = (name :: key :: val :: opts).map Arg.obj) := by
  refine ⟨setOptions_iff opts, ?_, ?_⟩
  · intro ws hr hx
    refine ⟨asked ws, askedBy_asked ws, ?_⟩
    have h := (setOptions_iff opts (asked ws)).mpr ⟨ws, hr, hx, askedBy_asked ws⟩
    simp only [setCommand, h]
  · intro hno
    have h : setOptions opts OBJ_SET_NO_FLAGS none .seconds = none := by
      cases hs : setOptions opts OBJ_SET_NO_FLAGS none .seconds with
      | none => rfl
      | some r =>
        obtain ⟨ws, hr, hx, _⟩ := (setOptions_iff opts r).mp hs
        exact absurd ⟨ws, hr, hx⟩ hno
    exact ⟨by simp only [setCommand, h], by simp only [setCommandArgv, h, List.map_cons]⟩

/-- NX, a zero byte and another letter. -/
def nxAndMore : Arg := ⟨[78, 88, 0, 97], true, 1, by decide⟩

/-- An argument that is not one of the words is taken for NX. -/
theorem setOptions_not_whole :
    ¬ ∀ opts : List Arg, (∃ r, setOptions opts OBJ_SET_NO_FLAGS none .seconds = some r) ↔
      ∃ ws, Reads whole opts ws ∧ Exclusive ws := by
  intro h
  obtain ⟨ws, hr, _⟩ := (h [nxAndMore]).mp ⟨({ OBJ_SET_NO_FLAGS with nx := true }, none, .seconds),
    rfl⟩
  cases hr with
  | nx hw _ => exact absurd hw (by decide)
  | xx hw _ => exact absurd hw (by decide)

/-! ## The deadline

The clock stands still, and only this is asked of the database: keys with an expire time are keys
of it. -/

variable {env : Env} {st : DbState} {now : Int}

/-- Whether a look at a key removes it. -/
def sweeps (env : Env) (now : Int) (db : RedisDb) (key : Bytes) : Bool :=
  match db.expires.lookup key with
  | none => false
  | some w => 0 ≤ w && !env.loading && !env.masterhost && env.luaCaller.getD now > w

/-- The database after a look at a key. -/
def looked (env : Env) (now : Int) (db : RedisDb) (key : Bytes) : RedisDb :=
  if sweeps env now db key then (dbDelete db key).1 else db

/-- NX wants no value, XX wants one. -/
def Admitted (env : Env) (now : Int) (db : RedisDb) (key : Bytes) (flags : SetFlags) : Prop :=
  (flags.nx = true → key ∉ (looked env now db key).dict) ∧
    (flags.xx = true → key ∈ (looked env now db key).dict)

theorem expireIfNeeded_looked (hnow : ∀ n, env.clock n = now) (hsub : st.db.ExpiresSub)
    (key : Bytes) : ∃ n r, expireIfNeeded env st key = some (⟨looked env now st.db key, n⟩, r) ∧
      (r = true → ∃ w, st.db.expires.lookup key = some w ∧ 0 ≤ w ∧ w < env.luaCaller.getD now) := by
  unfold expireIfNeeded
  rw [getExpire_eq hsub]
  cases hw : st.db.expires.lookup key with
  | none => exact ⟨st.ticks, false, by simp [looked, sweeps, hw], by simp⟩
  | some w =>
    by_cases hneg : w < 0
    · have h0 : ¬ 0 ≤ w := by omega
      exact ⟨st.ticks, false, by simp [looked, sweeps, hw, hneg, h0], by simp⟩
    have h0 : 0 ≤ w := by omega
    cases hl : env.loading with
    | true => exact ⟨st.ticks, false, by simp [looked, sweeps, hw, hneg, hl], by simp⟩
    | false =>
      -- a script sees the time of its start, anything else reads the clock
      cases hmh : env.masterhost with
      | true =>
        refine ⟨if env.luaCaller.isSome then st.ticks else st.ticks + 1,
          decide (env.luaCaller.getD now > w), ?_, fun h => ⟨w, rfl, h0, by simpa using h⟩⟩
        cases hlua : env.luaCaller with
        | none => simp [looked, sweeps, hw, hneg, hmh, mstime, hnow]
        | some start => simp [looked, sweeps, hw, hneg, hmh]
      | false =>
        by_cases hle : env.luaCaller.getD now ≤ w
        · refine ⟨if env.luaCaller.isSome then st.ticks else st.ticks + 1, false, ?_, by simp⟩
          cases hlua : env.luaCaller with
          | none =>
            rw [hlua, Option.getD_none] at hle
            simp [looked, sweeps, hw, hneg, hl, hmh, hlua, mstime, hnow, hle, Int.not_lt.mpr hle]
          | some start =>
            rw [hlua, Option.getD_some] at hle
            simp [looked, sweeps, hw, hneg, hl, hmh, hlua, hle, Int.not_lt.mpr hle]
        · refine ⟨if env.luaCaller.isSome then st.ticks else st.ticks + 1,
            (dbDelete st.db key).2, ?_, fun _ => ⟨w, rfl, h0, by omega⟩⟩
          cases hlua : env.luaCaller with
          | none =>
            rw [hlua, Option.getD_none] at hle
            simp [looked, sweeps, hw, hneg, hl, hmh, hlua, mstime, hnow, hle, h0, Int.not_le.mp hle]
          | some start =>
            rw [hlua, Option.getD_some] at hle
            simp [looked, sweeps, hw, hneg, hl, hmh, hlua, hle, h0, Int.not_le.mp hle]

theorem looked_sub (hsub : st.db.ExpiresSub) (key : Bytes) :
    (looked env now st.db key).ExpiresSub := by
  unfold looked
  split
  · rw [expiresSub_iff] at hsub ⊢
    intro k w hw
    rw [dbDelete_expires] at hw
    rw [dbDelete_dict]
    by_cases hk : k = key
    · rw [if_pos hk] at hw
      cases hw
    · rw [if_neg hk] at hw ⊢
      exact hsub k w hw
  · exact hsub

theorem lookupKeyWrite_looked (hnow : ∀ n, env.clock n = now) (hsub : st.db.ExpiresSub)
    (key : Bytes) : ∃ n, lookupKeyWrite env st key =
      some (⟨looked env now st.db key, n⟩, (looked env now st.db key).dict.lookup key) := by
  obtain ⟨n, r, heq, _⟩ := expireIfNeeded_looked hnow hsub key
  exact ⟨n, by simp only [lookupKeyWrite, heq, lookupKey]⟩

theorem setRefused_looked (hnow : ∀ n, env.clock n = now) (hsub : st.db.ExpiresSub) (key : Bytes)
    {flags : SetFlags} (hex : ¬ (flags.nx = true ∧ flags.xx = true)) :
    ∃ st' r, setRefused env st flags key = some (st', r) ∧
      (st'.db = st.db ∨ st'.db = looked env now st.db key) ∧
      (r = false ↔ Admitted env now st.db key flags) := by
  obtain ⟨n, heq⟩ := lookupKeyWrite_looked hnow hsub key
  have hmem : key ∈ (looked env now st.db key).dict ↔
      ((looked env now st.db key).dict.lookup key).isSome = true := AList.lookup_isSome.symm
  obtain ⟨nx, xx, ex, px⟩ := flags
  cases nx with
  | true =>
    have hxx : xx = false := by simpa using hex
    subst hxx
    cases hl : (looked env now st.db key).dict.lookup key with
    | none =>
      refine ⟨⟨looked env now st.db key, n⟩, false, by simp [setRefused, heq, hl], .inr rfl, ?_⟩
      simp [Admitted, hmem, hl]
    | some o =>
      refine ⟨⟨looked env now st.db key, n⟩, true, by simp [setRefused, heq, hl], .inr rfl, ?_⟩
      simp [Admitted, hmem, hl]
  | false =>
    cases xx with
    | true =>
      refine ⟨⟨looked env now st.db key, n⟩,
        ((looked env now st.db key).dict.lookup key).isNone, by simp [setRefused, heq],
        .inr rfl, ?_⟩
      simp [Admitted, hmem, Option.isSome_iff_ne_none]
    | false => exact ⟨st, false, by simp [setRefused], .inl rfl, by simp [Admitted]⟩

/-- `setKey` binds the value and clears the expire time, whatever the key was bound to. -/
theorem setKey_stores (hnow : ∀ n, env.clock n = now) (hsub : st.db.ExpiresSub) (key : Bytes)
    (val : Robj) : ∃ st', setKey env st key val = some st' ∧ st'.db.ExpiresSub ∧
      st'.db.dict.lookup key = some val ∧ st'.db.expires.lookup key = none := by
  obtain ⟨n, heq⟩ := lookupKeyWrite_looked hnow hsub key
  have hmem : key ∈ (looked env now st.db key).dict.insert key val :=
    (AList.mem_insert _).mpr (.inl rfl)
  refine ⟨⟨{ looked env now st.db key with
      dict := (looked env now st.db key).dict.insert key val
      expires := (looked env now st.db key).expires.erase key }, n⟩, ?_, ?_,
    AList.lookup_insert _, AList.lookup_erase key _⟩
  · simp only [setKey, heq, storeKey_lookup, removeExpire, hmem, if_true, signalModifiedKey]
  · intro k hk
    have hk' : k ≠ key ∧ k ∈ (looked env now st.db key).expires := AList.mem_erase.mp hk
    exact (AList.mem_insert _).mpr (.inr (looked_sub hsub key k hk'.2))

/-- SET with a time to live, on any database: it is refused and nothing but an expired key is gone,
or the key is bound and its deadline is the sum as `long long` has it. -/
theorem setCommand_outcome (hnow : ∀ n, env.clock n = now) (hsub : st.db.ExpiresSub) (key : Bytes)
    (val : Arg) {opts : List Arg} {flags : SetFlags} {ttl : Int}
    (hreq : setRequest opts = some (flags, some ttl)) :
    ∃ st' reply, setCommand env st key val opts = some (st', reply) ∧ 0 < ttl ∧
      (¬ Admitted env now st.db key flags → reply = [.addReply Shared.nullbulk] ∧
        (st'.db = st.db ∨ st'.db = looked env now st.db key)) ∧
      (Admitted env now st.db key flags → reply = [.addReply Shared.ok] ∧ st'.db.ExpiresSub ∧
        st'.db.dict.lookup key = some (tryObjectEncoding val.refcount val.obj) ∧
        st'.db.expires.lookup key = some (toLong (now + ttl))) := by
  cases ho : setOptions opts OBJ_SET_NO_FLAGS none .seconds with
  | none => simp [setRequest, ho] at hreq
  | some r =>
    obtain ⟨flags', expire, unit⟩ := r
    rcases setMilliseconds_spec ho with ⟨msg, calls, hreq', _⟩ | ⟨ttl', milliseconds, hreq', hms, hrel⟩
    · rw [hreq'] at hreq
      cases hreq
    rw [hreq'] at hreq
    cases hreq
    rcases hrel with ⟨h, _⟩ | ⟨n, ms, h, rfl, hpos, rfl⟩
    · cases h
    cases h
    have hex : ¬ (flags.nx = true ∧ flags.xx = true) :=
      setOptions_exclusive opts _ _ _ (by decide) _ ho
    obtain ⟨st₁, refused, hrefused, hdb, hadm⟩ := setRefused_looked hnow hsub key hex
    cases refused with
    | true =>
      refine ⟨st₁, [.addReply Shared.nullbulk],
        by simp only [setCommand, ho, setGenericCommand, hms, hrefused], hpos, fun _ => ⟨rfl, hdb⟩,
        fun ha => ?_⟩
      exact absurd (hadm.mpr ha) (by simp)
    | false =>
      have hsub₁ : st₁.db.ExpiresSub := by
        rcases hdb with h | h
        · rw [h]
          exact hsub
        · rw [h]
          exact looked_sub hsub key
      obtain ⟨st₂, hset, hsub₂, hval, _⟩ := setKey_stores hnow hsub₁ key
        (tryObjectEncoding val.refcount val.obj)
      have hmem : key ∈ st₂.db.dict := AList.lookup_isSome.mp (by rw [hval]; rfl)
      refine ⟨⟨{ st₂.db with expires := st₂.db.expires.insert key (toLong (now + toLong ttl)) },
        st₂.ticks + 1⟩, [.addReply Shared.ok], ?_, hpos, fun hno => absurd (hadm.mp rfl) hno,
        fun _ => ⟨rfl, ?_, hval, ?_⟩⟩
      · simp only [setCommand, ho, setGenericCommand, hms, hrefused, hset, mstime, hnow, setExpire,
          hmem, if_true]
      · intro k hk
        rcases (AList.mem_insert _).mp hk with rfl | hk
        · exact hmem
        · exact hsub₂ k hk
      · rw [toLong_add]
        exact AList.lookup_insert _

/-- A key whose deadline has not passed is read. -/
theorem getCommand_kept (hnow : ∀ n, env.clock n = now) (hsub : st.db.ExpiresSub) {key : Bytes}
    {w : Int} {o : Robj} (hw : st.db.expires.lookup key = some w)
    (hle : env.luaCaller.getD now ≤ w) (ho : st.db.dict.lookup key = some o)
    (hstr : o.isString = true) :
    ∃ n, getCommand env st key = some (⟨st.db, n⟩, addReplyBulk o) := by
  obtain ⟨n, r, heq, hr⟩ := expireIfNeeded_looked hnow hsub key
  have hlooked : looked env now st.db key = st.db := by
    have hsw : sweeps env now st.db key = false := by
      simp [sweeps, hw, Int.not_lt.mpr hle]
    simp only [looked, hsw, Bool.false_eq_true, if_false]
  have hrf : r = false := by
    cases r with
    | false => rfl
    | true =>
      obtain ⟨w', hw', _, hlt⟩ := hr rfl
      rw [hw] at hw'
      cases hw'
      omega
  subst hrf
  rw [hlooked] at heq
  refine ⟨n, ?_⟩
  simp [getCommand, lookupKeyRead, heq, lookupKey, ho, hstr]

/-- The deadline is kept: SET binds the key to the exact sum and the key can be read, or it is
refused and the database is as it was, but for an expired key. -/
def DeadlineKept (env : Env) (now : Int) (st : DbState) (key : Bytes) (val : Arg) (opts : List Arg)
    (ttl : Int) : Prop :=
  ∃ st' reply, setCommand env st key val opts = some (st', reply) ∧
    (reply = [.addReply Shared.ok] →
      st'.db.expires.lookup key = some (now + ttl) ∧ now + ttl ≤ LONG_MAX ∧
      ∃ st'' calls, getCommand env st' key = some (st'', calls) ∧ replyBytes calls = respBulk val.s) ∧
    (reply ≠ [.addReply Shared.ok] → st'.db = st.db ∨ st'.db = looked env now st.db key)

theorem nullbulk_ne_ok : [ReplyCall.addReply Shared.nullbulk] ≠ [ReplyCall.addReply Shared.ok] := by
  decide

/-- **The deadline of SET.**  Whatever the database, a positive time to live is kept, or the SET is
refused, if and only if NX or XX refuse or the deadline is a `long long`. -/
theorem deadlineKept_iff (hnow : ∀ n, env.clock n = now) (h0 : 0 ≤ now)
    (hstart : ∀ start, env.luaCaller = some start → start ≤ now) (hsub : st.db.ExpiresSub)
    (key : Bytes) (val : Arg) {opts : List Arg} {flags : SetFlags} {ttl : Int}
    (hreq : setRequest opts = some (flags, some ttl)) :
    DeadlineKept env now st key val opts ttl ↔
      (Admitted env now st.db key flags → now + ttl ≤ LONG_MAX) := by
  obtain ⟨st', reply, heq, hpos, hno, hyes⟩ := setCommand_outcome hnow hsub key val hreq
  constructor
  · intro ⟨st'', reply', heq', hok, _⟩ hadm
    rw [heq] at heq'
    cases heq'
    exact (hok (hyes hadm).1).2.1
  · intro hfits
    refine ⟨st', reply, heq, ?_, ?_⟩
    · intro hok
      have hadm : Admitted env now st.db key flags := by
        by_contra hadm
        rw [(hno hadm).1] at hok
        exact nullbulk_ne_ok hok
      obtain ⟨_, hsub', hval, hexp⟩ := hyes hadm
      have hsum := hfits hadm
      have hmax : LONG_MAX = 2 ^ 63 - 1 := rfl
      rw [toLong_eq (by omega) (by omega)] at hexp
      have hread : env.luaCaller.getD now ≤ now + ttl := by
        cases hlua : env.luaCaller with
        | none => simp only [Option.getD_none]; omega
        | some start =>
          have := hstart start hlua
          simp only [Option.getD_some]
          omega
      obtain ⟨hvok, hvstr, hvb⟩ := storedArg_ok val
      obtain ⟨n, hget⟩ := getCommand_kept hnow hsub' hexp hread hval hvstr
      refine ⟨hexp, hsum, _, _, hget, ?_⟩
      have hlen := val.len_lt
      rw [← hvb] at hlen
      rw [replyBytes_bulk hvok hvstr hlen, hvb]
    · intro hok
      by_cases hadm : Admitted env now st.db key flags
      · exact absurd (hyes hadm).1 hok
      · exact (hno hadm).2

/-- A server whose clock shows one millisecond. -/
def earlyEnv : Env := ⟨fun _ => 1, false, false, none, false⟩

theorem px_fits : ((cstr "PX").length : Int) ≤ LONG_MAX := by decide

/-- `PX` with a number of milliseconds. -/
def px (s : String) (h : ((cstr s).length : Int) ≤ LONG_MAX) : List Arg :=
  [mkArg "PX" px_fits, mkArg s h]

theorem admitted_init (env : Env) (now : Int) (key : Bytes) :
    Admitted env now DbState.init.db key ⟨false, false, false, true⟩ :=
  ⟨by simp, by simp⟩

/-- `SET k v PX 10`. -/
theorem deadlineKept_ten : DeadlineKept earlyEnv 1 DbState.init (cstr "k")
    (mkArg "v" (by decide)) (px "10" (by decide)) 10 := by
  have hreq : setRequest (px "10" (by decide)) = some (⟨false, false, false, true⟩, some 10) := by
    decide
  exact (deadlineKept_iff (fun _ => rfl) (by decide) (fun _ h => by cases h)
    (@represents_init earlyEnv).sub _ _ hreq).mpr fun _ => by decide

/-- `SET k v PX 9223372036854775807` wraps: the key gets a deadline before the beginning of time,
which is none. -/
theorem deadline_wraps :
    setRequest (px "9223372036854775807" (by decide))
      = some (⟨false, false, false, true⟩, some 9223372036854775807) ∧
    ¬ DeadlineKept earlyEnv 1 DbState.init (cstr "k") (mkArg "v" (by decide))
      (px "9223372036854775807" (by decide)) 9223372036854775807 := by
  have hreq : setRequest (px "9223372036854775807" (by decide))
      = some (⟨false, false, false, true⟩, some 9223372036854775807) := by decide
  refine ⟨hreq, ?_⟩
  obtain ⟨st', reply, heq, _, _, hyes⟩ := @setCommand_outcome earlyEnv DbState.init 1
    (fun _ => rfl) (@represents_init earlyEnv).sub (cstr "k") (mkArg "v" (by decide)) _ _ _ hreq
  intro ⟨st'', reply', heq', hok, _⟩
  rw [heq] at heq'
  cases heq'
  have hsum := (hok (hyes (admitted_init _ _ _)).1).2.1
  exact absurd hsum (by decide)

end SetCommand

end RedisCore
