/-
# `RedisCore.Networking.Words` — the words of a line (sds.c)

`sdssplitargs` cuts a line into words.  A word may contain text in double quotes, where a
backslash introduces an escape, and in single quotes, where it may only stand before a quote.
`sdscatrepr` writes a string in double quotes with its own table of escapes.

Outside of quotes every byte can be read; so a line is refused exactly when a quote that
opens is not closed, or is closed in front of something that is not a space.  And a list of
strings that is written in quotes and joined by spaces is read back as it was.
-/
import RedisCore.Networking.Query
import RedisCore.Sds

namespace RedisCore

namespace Query

open CInt Decimal

/-! ## The loops end -/

/-- A token takes nothing that was not there. -/
theorem splitToken_length {q : Quote} {current p : Bytes} : ∀ {token rest : Bytes},
    splitToken q current p = some (token, rest) → rest.length ≤ p.length := by
  fun_induction splitToken q current p <;> grind

/-- What is left behind a token is an end of the line. -/
theorem splitToken_suffix {q : Quote} {current p : Bytes} : ∀ {token rest : Bytes},
    splitToken q current p = some (token, rest) → rest <:+ p := by
  fun_induction splitToken q current p <;> grind [List.suffix_cons_iff]

/-- Behind the first byte of a token there is less left. -/
theorem splitToken_lt {current p : Bytes} {c : UInt8} {token rest : Bytes}
    (h : splitToken .plain current (c :: p) = some (token, rest)) : rest.length ≤ p.length := by
  rw [splitToken] at h
  split at h
  · cases h
    exact Nat.le_refl _
  · split at h
    · exact splitToken_length h
    · split at h
      · exact splitToken_length h
      · exact splitToken_length h

theorem splitLoop_ok : ∀ (fuel : Nat) (p : Bytes), p.length < fuel →
    ∃ vector, splitLoop fuel p = .ok vector := by
  intro fuel
  induction fuel with
  | zero => intro p h; omega
  | succ fuel ih =>
      intro p h
      have hle : (p.dropWhile isspace).length ≤ p.length := (List.dropWhile_suffix _).length_le
      rw [splitLoop]
      cases hp : p.dropWhile isspace with
      | nil => exact ⟨_, rfl⟩
      | cons c p' =>
          rw [hp, List.length_cons] at hle
          dsimp only
          cases htoken : splitToken .plain [] (c :: p') with
          | none => exact ⟨_, rfl⟩
          | some token =>
              obtain ⟨current, rest⟩ := token
              have hrest := splitToken_lt htoken
              obtain ⟨vector, hvector⟩ := ih rest (by omega)
              dsimp only
              rw [hvector]
              exact ⟨_, rfl⟩

/-- The loop of `sdssplitargs` ends. -/
theorem sdssplitargs_ok (line : Bytes) : ∃ vector, sdssplitargs line = .ok vector := by
  refine splitLoop_ok _ _ ?_
  have hle : (cstring line).length ≤ line.length := (List.takeWhile_prefix _).length_le
  omega


/-! ## Quotes -/

/-- What can stand between double quotes: a backslash takes the next byte with it. -/
inductive InDouble : Bytes → Prop
  | nil : InDouble []
  | escape {c : UInt8} {body : Bytes} : InDouble body → InDouble (92 :: c :: body)
  | byte {c : UInt8} {body : Bytes} : c ≠ 34 → c ≠ 92 → InDouble body → InDouble (c :: body)

/-- What can stand between single quotes: a backslash takes a quote with it. -/
inductive InSingle : Bytes → Prop
  | nil : InSingle []
  | escape {body : Bytes} : InSingle body → InSingle (92 :: 39 :: body)
  | byte {c : UInt8} {body : Bytes} : c ≠ 39 → c ≠ 92 → InSingle body → InSingle (c :: body)
  | backslash {c : UInt8} {body : Bytes} : c ≠ 39 → InSingle (c :: body) →
      InSingle (92 :: c :: body)

/-- A quote, and what can stand between two of it. -/
inductive Between : UInt8 → Bytes → Prop
  | double {body : Bytes} : InDouble body → Between 34 body
  | single {body : Bytes} : InSingle body → Between 39 body

/-- The line is not quoted properly: outside of quotes, a quote is not closed or is closed
in front of a byte that is not a space. -/
inductive Misquoted : Bytes → Prop
  | unclosed {q : UInt8} {p : Bytes} : q = 34 ∨ q = 39 →
      (∀ body rest, Between q body → p ≠ body ++ q :: rest) → Misquoted (q :: p)
  | stuck {q c : UInt8} {body rest : Bytes} : Between q body → isspace c = false →
      Misquoted (q :: (body ++ q :: c :: rest))
  | past {q : UInt8} {body rest : Bytes} : Between q body → Misquoted rest →
      Misquoted (q :: (body ++ q :: rest))
  | skip {c : UInt8} {p : Bytes} : c ≠ 34 → c ≠ 39 → Misquoted p → Misquoted (c :: p)

/-- What is left behind the closing double quote. -/
def behindDouble : Bytes → Option Bytes
  | [] => none
  | [c] => if c = 34 then some [] else none
  | c :: e :: p =>
      if c = 92 then behindDouble p
      else if c = 34 then some (e :: p)
      else behindDouble (e :: p)

/-- What is left behind the closing single quote. -/
def behindSingle : Bytes → Option Bytes
  | [] => none
  | [c] => if c = 39 then some [] else none
  | c :: e :: p =>
      if c = 92 ∧ e = 39 then behindSingle p
      else if c = 39 then some (e :: p)
      else behindSingle (e :: p)

theorem behindDouble_iff {p rest : Bytes} :
    behindDouble p = some rest ↔ ∃ body, InDouble body ∧ p = body ++ 34 :: rest := by
  constructor
  · intro h
    induction p using behindDouble.induct with
    | case1 => exact absurd h (by simp [behindDouble])
    | case2 => exact ⟨[], .nil, by simpa [behindDouble] using h⟩
    | case3 c hc => exact absurd h (by simp [behindDouble, hc])
    | case4 e p ih =>
        obtain ⟨body, hbody, heq⟩ := ih (by simpa [behindDouble] using h)
        exact ⟨_, .escape hbody, by rw [heq]; rfl⟩
    | case5 e p hc =>
        exact ⟨[], .nil, by simpa [behindDouble] using h⟩
    | case6 c e p hc hq ih =>
        obtain ⟨body, hbody, heq⟩ := ih (by simpa [behindDouble, hc, hq] using h)
        exact ⟨_, .byte hq hc hbody, by rw [heq]; rfl⟩
  · rintro ⟨body, hbody, rfl⟩
    induction hbody with
    | nil => cases rest <;> simp [behindDouble]
    | escape _ ih => simpa [behindDouble] using ih
    | @byte c body h₁ h₂ _ ih => cases body <;> simpa [behindDouble, h₁, h₂] using ih

theorem behindSingle_iff {p rest : Bytes} :
    behindSingle p = some rest ↔ ∃ body, InSingle body ∧ p = body ++ 39 :: rest := by
  constructor
  · intro h
    induction p using behindSingle.induct with
    | case1 => exact absurd h (by simp [behindSingle])
    | case2 => exact ⟨[], .nil, by simpa [behindSingle] using h⟩
    | case3 c hc => exact absurd h (by simp [behindSingle, hc])
    | case4 c e p hc ih =>
        obtain ⟨rfl, rfl⟩ := hc
        obtain ⟨body, hbody, heq⟩ := ih (by simpa [behindSingle] using h)
        exact ⟨_, .escape hbody, by rw [heq]; rfl⟩
    | case5 e p hc =>
        exact ⟨[], .nil, by simpa [behindSingle] using h⟩
    | case6 c e p hc hq ih =>
        obtain ⟨body, hbody, heq⟩ := ih (by simpa [behindSingle, hc, hq] using h)
        by_cases hb : c = 92
        · subst hb
          have he : e ≠ 39 := fun he => hc ⟨rfl, he⟩
          cases body with
          | nil => exact absurd (List.cons.inj heq).1 he
          | cons x body =>
              obtain ⟨rfl, heq'⟩ := List.cons.inj heq
              exact ⟨_, .backslash he hbody, by rw [heq']; rfl⟩
        · exact ⟨_, .byte hq hb hbody, by rw [heq]; rfl⟩
  · rintro ⟨body, hbody, rfl⟩
    induction hbody with
    | nil => cases rest <;> simp [behindSingle]
    | escape _ ih => simpa [behindSingle] using ih
    | @byte c body h₁ h₂ _ ih => cases body <;> simpa [behindSingle, h₁, h₂] using ih
    | backslash h _ ih => simpa [behindSingle, h] using ih

@[simp] theorem behindDouble_quote (p : Bytes) : behindDouble (34 :: p) = some p := by
  cases p <;> simp [behindDouble]

@[simp] theorem behindDouble_escape (c : UInt8) (p : Bytes) :
    behindDouble (92 :: c :: p) = behindDouble p := by
  simp [behindDouble]

@[simp] theorem behindSingle_quote (p : Bytes) : behindSingle (39 :: p) = some p := by
  cases p <;> simp [behindSingle]

@[simp] theorem behindSingle_escape (p : Bytes) :
    behindSingle (92 :: 39 :: p) = behindSingle p := by
  simp [behindSingle]

theorem behindSingle_backslash {c : UInt8} (h : c ≠ 39) (p : Bytes) :
    behindSingle (92 :: c :: p) = behindSingle (c :: p) := by
  simp [behindSingle, h]

theorem behindDouble_cons {c : UInt8} (h₁ : c ≠ 34) (h₂ : c ≠ 92) (p : Bytes) :
    behindDouble (c :: p) = behindDouble p := by
  cases p <;> simp [behindDouble, h₁, h₂]

theorem behindSingle_cons {c : UInt8} (h₁ : c ≠ 39) (h₂ : c ≠ 92) (p : Bytes) :
    behindSingle (c :: p) = behindSingle p := by
  cases p <;> simp [behindSingle, h₁, h₂]

/-- What is left behind a word that starts outside of quotes. -/
def behindWord : Bytes → Option Bytes
  | [] => some []
  | c :: p =>
      if c = 32 ∨ c = 10 ∨ c = 13 ∨ c = 9 then some p
      else if c = 34 then (behindDouble p).filter closes
      else if c = 39 then (behindSingle p).filter closes
      else behindWord p

/-- What is left behind a word, by where the reader is. -/
def behindToken : Quote → Bytes → Option Bytes
  | .plain, p => behindWord p
  | .double, p => (behindDouble p).filter closes
  | .single, p => (behindSingle p).filter closes

theorem isHexDigit_ne {c : UInt8} (h : isHexDigit c = true) : c ≠ 34 ∧ c ≠ 92 := by
  constructor <;> (rintro rfl; exact absurd h (by decide))

/-- Where a word ends does not depend on what its escapes stand for. -/
theorem splitToken_rest (q : Quote) (current p : Bytes) :
    (splitToken q current p).map Prod.snd = behindToken q p := by
  fun_induction splitToken q current p with
  | case1 => rfl
  | case2 current c p h => simp [behindToken, behindWord, h]
  | case3 current p h ih => simpa [behindToken, behindWord] using ih
  | case4 current p h₁ h₂ ih => simpa [behindToken, behindWord] using ih
  | case5 current c p h₁ h₂ h₃ ih => simpa [behindToken, behindWord, h₁, h₂, h₃] using ih
  | case6 => rfl
  | case7 current ih => rw [ih]; rfl
  | case8 current h l r hhex ih =>
      -- the two digits are bytes like any other to the search for the quote
      obtain ⟨hh, hl⟩ := Bool.and_eq_true_iff.mp hhex
      obtain ⟨hh₁, hh₂⟩ := isHexDigit_ne hh
      obtain ⟨hl₁, hl₂⟩ := isHexDigit_ne hl
      rw [ih]
      simp [behindToken, behindDouble_cons hh₁ hh₂, behindDouble_cons hl₁ hl₂]
  | case9 current h l r hhex ih => simpa [behindToken] using ih
  | case10 current h ih => simpa [behindToken] using ih
  | case11 current ih => simpa [behindToken] using ih
  | case12 current e q h ih => simpa [behindToken] using ih
  | case13 current p hcloses h => simp [behindToken, Option.filter, hcloses]
  | case14 current p hcloses h => simp [behindToken, Option.filter, hcloses]
  | case15 current c p h₁ h₂ ih => simpa [behindToken, behindDouble_cons h₂ h₁] using ih
  | case16 => rfl
  | case17 current ih => rw [ih]; rfl
  | case18 current q ih => simpa [behindToken] using ih
  | case19 current e q h ih => simpa [behindToken, behindSingle_backslash h] using ih
  | case20 current p hcloses h => simp [behindToken, Option.filter, hcloses]
  | case21 current p hcloses h => simp [behindToken, Option.filter, hcloses]
  | case22 current c p h₁ h₂ ih => simpa [behindToken, behindSingle_cons h₂ h₁] using ih

/-! ## Which lines are refused -/

theorem not_misquoted_nil : ¬ Misquoted [] := by
  rintro ⟨⟩

theorem misquoted_skip {c : UInt8} (h₁ : c ≠ 34) (h₂ : c ≠ 39) (p : Bytes) :
    Misquoted (c :: p) ↔ Misquoted p := by
  constructor
  · intro h
    cases h with
    | unclosed hq _ => rcases hq with rfl | rfl <;> contradiction
    | stuck hb _ => cases hb <;> contradiction
    | past hb _ => cases hb <;> contradiction
    | skip _ _ h => exact h
  · exact .skip h₁ h₂

theorem behindDouble_between (p rest : Bytes) :
    behindDouble p = some rest ↔ ∃ body, Between 34 body ∧ p = body ++ 34 :: rest := by
  rw [behindDouble_iff]
  constructor
  · rintro ⟨body, hbody, rfl⟩
    exact ⟨body, .double hbody, rfl⟩
  · rintro ⟨body, hbody, rfl⟩
    cases hbody with
    | double hbody => exact ⟨body, hbody, rfl⟩

theorem behindSingle_between (p rest : Bytes) :
    behindSingle p = some rest ↔ ∃ body, Between 39 body ∧ p = body ++ 39 :: rest := by
  rw [behindSingle_iff]
  constructor
  · rintro ⟨body, hbody, rfl⟩
    exact ⟨body, .single hbody, rfl⟩
  · rintro ⟨body, hbody, rfl⟩
    cases hbody with
    | single hbody => exact ⟨body, hbody, rfl⟩

/-- A line that starts with a quote, given the search `f` for the end of the quotes. -/
theorem misquoted_quote {q : UInt8} {f : Bytes → Option Bytes} (hq : q = 34 ∨ q = 39)
    (hf : ∀ p rest, f p = some rest ↔ ∃ body, Between q body ∧ p = body ++ q :: rest) (p : Bytes) :
    Misquoted (q :: p) ↔ ∀ rest, (f p).filter closes = some rest → Misquoted rest := by
  constructor
  · intro h rest hrest
    obtain ⟨hrest, hcloses⟩ := Option.filter_eq_some_iff.mp hrest
    cases h with
    | unclosed _ hopen =>
        obtain ⟨body, hbody, heq⟩ := (hf _ _).mp hrest
        exact absurd heq (hopen body rest hbody)
    | @stuck _ c body rest' hbody hc =>
        rw [(hf _ _).mpr ⟨body, hbody, rfl⟩] at hrest
        cases hrest
        exact absurd hcloses (by simp [closes, hc])
    | @past _ body rest' hbody h =>
        rw [(hf _ _).mpr ⟨body, hbody, rfl⟩] at hrest
        cases hrest
        exact h
    | skip h₁ h₂ _ => rcases hq with rfl | rfl <;> contradiction
  · intro h
    cases hrest : f p with
    | none =>
        refine .unclosed hq (fun body rest hbody heq => ?_)
        rw [(hf _ _).mpr ⟨body, hbody, heq⟩] at hrest
        exact absurd hrest (by simp)
    | some rest =>
        obtain ⟨body, hbody, rfl⟩ := (hf _ _).mp hrest
        cases hcloses : closes rest with
        | true => exact .past hbody (h rest (by rw [hrest, Option.filter, if_pos hcloses]))
        | false =>
            cases rest with
            | nil => exact absurd hcloses (by simp [closes])
            | cons c rest => exact .stuck hbody hcloses

theorem misquoted_double (p : Bytes) :
    Misquoted (34 :: p) ↔ ∀ rest, (behindDouble p).filter closes = some rest → Misquoted rest :=
  misquoted_quote (Or.inl rfl) behindDouble_between p

theorem misquoted_single (p : Bytes) :
    Misquoted (39 :: p) ↔ ∀ rest, (behindSingle p).filter closes = some rest → Misquoted rest :=
  misquoted_quote (Or.inr rfl) behindSingle_between p

/-- A word that cannot be read makes the line misquoted; otherwise the rest decides. -/
theorem misquoted_word (p : Bytes) :
    Misquoted p ↔ p ≠ [] ∧ ∀ rest, behindWord p = some rest → Misquoted rest := by
  induction p with
  | nil => simp [not_misquoted_nil]
  | cons c p ih =>
      simp only [behindWord, ne_eq, reduceCtorEq, not_false_eq_true, true_and]
      split
      · next hsep =>
          have hc : c ≠ 34 ∧ c ≠ 39 := by
            rcases hsep with rfl | rfl | rfl | rfl <;> decide
          rw [misquoted_skip hc.1 hc.2]
          simp
      · split
        · next hc => rw [hc, misquoted_double]
        · split
          · next hc => rw [hc, misquoted_single]
          · next h₁ h₂ =>
              rw [misquoted_skip h₁ h₂, ih]
              refine ⟨fun h => h.2, fun h => ⟨?_, h⟩⟩
              rintro rfl
              exact not_misquoted_nil (h [] rfl)

theorem isspace_ne {c : UInt8} (h : isspace c = true) : c ≠ 34 ∧ c ≠ 39 := by
  constructor <;> (rintro rfl; exact absurd h (by decide))

/-- Blanks do not matter. -/
theorem misquoted_dropWhile (p : Bytes) : Misquoted (p.dropWhile isspace) ↔ Misquoted p := by
  induction p with
  | nil => rfl
  | cons c p ih =>
      cases hc : isspace c with
      | true => rw [List.dropWhile_cons_of_pos hc, ih, misquoted_skip (isspace_ne hc).1 (isspace_ne hc).2]
      | false => rw [List.dropWhile_cons_of_neg (by simp [hc])]

/-- The loop of `sdssplitargs` refuses exactly the lines that are misquoted. -/
theorem splitLoop_none : ∀ (fuel : Nat) (p : Bytes), p.length < fuel →
    (splitLoop fuel p = .ok none ↔ Misquoted p) := by
  intro fuel
  induction fuel with
  | zero => intro p h; omega
  | succ fuel ih =>
      intro p h
      have hle : (p.dropWhile isspace).length ≤ p.length := (List.dropWhile_suffix _).length_le
      rw [← misquoted_dropWhile p, splitLoop]
      cases hp : p.dropWhile isspace with
      | nil => simp [not_misquoted_nil]
      | cons c p' =>
          rw [hp, List.length_cons] at hle
          dsimp only
          have hrest := splitToken_rest .plain [] (c :: p')
          rw [misquoted_word]
          cases htoken : splitToken .plain [] (c :: p') with
          | none =>
              rw [htoken] at hrest
              simp [← show none = behindWord (c :: p') from hrest]
          | some token =>
              obtain ⟨current, rest⟩ := token
              rw [htoken] at hrest
              have hlt := splitToken_lt htoken
              have hrest : behindWord (c :: p') = some rest := hrest.symm
              obtain ⟨vector, hvector⟩ := splitLoop_ok fuel rest (by omega)
              have hih := ih rest (by omega)
              dsimp only
              rw [hrest, hvector, ok_bind]
              rw [hvector] at hih
              cases vector with
              | none =>
                  have hmis := hih.mp rfl
                  exact ⟨fun _ => ⟨by simp, fun rest' h => Option.some.inj h ▸ hmis⟩, fun _ => rfl⟩
              | some argv =>
                  have hnot : ¬ Misquoted rest := fun h => absurd (hih.mpr h) (by simp)
                  exact ⟨fun h => absurd h (by simp [pure, Except.pure]),
                    fun h => absurd (h.2 rest rfl) hnot⟩

/-! ## Quoting and reading back -/

/-- The two digits of a byte are read as the byte. -/
theorem hexDigit_reads : ∀ n < 256, isHexDigit (hexDigit (UInt8.ofNat n / 16)) = true ∧
    isHexDigit (hexDigit (UInt8.ofNat n % 16)) = true ∧
    hexDigitToInt (hexDigit (UInt8.ofNat n / 16)) * 16
      + hexDigitToInt (hexDigit (UInt8.ofNat n % 16)) = UInt8.ofNat n := by
  decide +kernel

theorem splitToken_escape {e : UInt8} {rest : Bytes} (hhex : ∀ a b t, e = 120 →
    rest = a :: b :: t → ¬ (isHexDigit a = true ∧ isHexDigit b = true)) (current : Bytes) :
    splitToken .double current (92 :: e :: rest) =
      splitToken .double (current ++ [escaped e]) rest := by
  rw [splitToken.eq_def]
  by_cases he : e = 120
  · subst he
    match rest, hhex with
    | [], _ => simp
    | [a], _ => simp
    | a :: b :: t, hhex =>
        have hab := hhex a b t rfl rfl
        simp only [if_true, Bool.and_eq_true, hab, if_false]
  · simp [he]

theorem splitToken_hex {h l : UInt8} (hh : isHexDigit h = true) (hl : isHexDigit l = true)
    (current rest : Bytes) : splitToken .double current (92 :: 120 :: h :: l :: rest) =
      splitToken .double (current ++ [hexDigitToInt h * 16 + hexDigitToInt l]) rest := by
  rw [splitToken.eq_def]
  simp [hh, hl]

theorem splitToken_byte {c : UInt8} (h₁ : c ≠ 92) (h₂ : c ≠ 34) (current rest : Bytes) :
    splitToken .double current (c :: rest) = splitToken .double (current ++ [c]) rest := by
  rw [splitToken.eq_def]
  simp [h₁, h₂]

/-- What is written for a byte is read as the byte, whatever comes behind it. -/
theorem splitToken_reprByte (current rest : Bytes) (c : UInt8) :
    splitToken .double current (reprByte c ++ rest) = splitToken .double (current ++ [c]) rest := by
  unfold reprByte
  split_ifs with h₁ h₂ h₃ h₄ h₅ h₆ h₇
  · rcases h₁ with rfl | rfl <;> exact splitToken_escape (fun _ _ _ he => absurd he (by decide)) _
  · subst h₂; exact splitToken_escape (fun _ _ _ he => absurd he (by decide)) _
  · subst h₃; exact splitToken_escape (fun _ _ _ he => absurd he (by decide)) _
  · subst h₄; exact splitToken_escape (fun _ _ _ he => absurd he (by decide)) _
  · subst h₅; exact splitToken_escape (fun _ _ _ he => absurd he (by decide)) _
  · subst h₆; exact splitToken_escape (fun _ _ _ he => absurd he (by decide)) _
  · exact splitToken_byte (fun h => h₁ (Or.inl h)) (fun h => h₁ (Or.inr h)) _ _
  · obtain ⟨hh, hl, hval⟩ := hexDigit_reads c.toNat c.toNat_lt
    rw [UInt8.ofNat_toNat] at hh hl hval
    have hhex := splitToken_hex hh hl current rest
    rw [hval] at hhex
    exact hhex

/-- What is written for a string is read as the string, up to the closing quote. -/
theorem splitToken_repr : ∀ (s current rest : Bytes), closes rest = true →
    splitToken .double current (s.flatMap reprByte ++ 34 :: rest) = some (current ++ s, rest) := by
  intro s
  induction s with
  | nil =>
      intro current rest h
      rw [splitToken.eq_def]
      simp [h]
  | cons c s ih =>
      intro current rest h
      rw [List.flatMap_cons, List.append_assoc, splitToken_reprByte, ih _ _ h, List.append_assoc]
      rfl

/-- Strings in quotes, joined by spaces. -/
def quotedLine (argv : List Bytes) : Bytes := List.intercalate [32] (argv.map (sdscatrepr []))

/-- The quoted strings of a line are read back. -/
theorem splitLoop_quotedLine : ∀ (argv : List Bytes) (fuel : Nat),
    (quotedLine argv).length < fuel → splitLoop fuel (quotedLine argv) = .ok (some argv) := by
  intro argv
  induction argv with
  | nil =>
      intro fuel h
      obtain ⟨fuel, rfl⟩ : ∃ f, fuel = f + 1 := ⟨fuel - 1, by omega⟩
      rfl
  | cons s argv ih =>
      intro fuel h
      obtain ⟨fuel, rfl⟩ : ∃ f, fuel = f + 1 := ⟨fuel - 1, by omega⟩
      -- the first string, and then a space and the others if there are any
      obtain ⟨rest, hline, hrest, hloop⟩ : ∃ rest,
          quotedLine (s :: argv) = 34 :: (s.flatMap reprByte ++ 34 :: rest) ∧
          closes rest = true ∧ splitLoop fuel rest = .ok (some argv) := by
        cases argv with
        | nil =>
            refine ⟨[], by simp [quotedLine, sdscatrepr], rfl, ?_⟩
            obtain ⟨fuel, rfl⟩ : ∃ f, fuel = f + 1 := by
              refine ⟨fuel - 1, ?_⟩
              simp [quotedLine, sdscatrepr] at h
              omega
            rfl
        | cons t argv =>
            have hline : quotedLine (s :: t :: argv) =
                34 :: (s.flatMap reprByte ++ 34 :: 32 :: quotedLine (t :: argv)) := by
              simp [quotedLine, sdscatrepr, List.intercalate]
            refine ⟨32 :: quotedLine (t :: argv), hline, rfl, ?_⟩
            have hlen := congrArg List.length hline
            simp only [List.length_cons, List.length_append] at hlen
            obtain ⟨fuel', rfl⟩ : ∃ f, fuel = f + 1 := ⟨fuel - 1, by omega⟩
            have hskip : splitLoop (fuel' + 1) (32 :: quotedLine (t :: argv)) =
                splitLoop (fuel' + 1) (quotedLine (t :: argv)) := by
              rw [splitLoop, splitLoop, List.dropWhile_cons_of_pos (by decide)]
            rw [hskip]
            exact ih _ (by omega)
      rw [hline, splitLoop, List.dropWhile_cons_of_neg (by decide)]
      dsimp only
      rw [splitToken, if_neg (by decide), if_pos rfl, splitToken_repr s [] rest hrest]
      dsimp only
      rw [hloop, ok_bind]
      rfl

theorem reprByte_ne_zero : ∀ n < 256, 0 ∉ reprByte (UInt8.ofNat n) := by
  decide +kernel

/-- A line of quoted strings is a C string. -/
theorem quotedLine_noNul : ∀ argv : List Bytes, 0 ∉ quotedLine argv := by
  have hrepr : ∀ s : Bytes, 0 ∉ sdscatrepr [] s := by
    intro s h
    simp only [sdscatrepr, List.nil_append, List.mem_append, List.mem_singleton, List.mem_flatMap]
      at h
    rcases h with (h | ⟨c, _, h⟩) | h
    · exact absurd h (by decide)
    · have hc := reprByte_ne_zero c.toNat c.toNat_lt
      rw [UInt8.ofNat_toNat] at hc
      exact hc h
    · exact absurd h (by decide)
  intro argv
  induction argv with
  | nil => exact List.not_mem_nil
  | cons s argv ih =>
      cases argv with
      | nil => simpa [quotedLine] using hrepr s
      | cons t argv =>
          have hline : quotedLine (s :: t :: argv) = sdscatrepr [] s ++ 32 :: quotedLine (t :: argv) := by
            simp [quotedLine, List.intercalate]
          rw [hline, List.mem_append, List.mem_cons]
          rintro (h | h | h)
          · exact hrepr s h
          · exact absurd h (by decide)
          · exact ih h

end Query

end RedisCore
