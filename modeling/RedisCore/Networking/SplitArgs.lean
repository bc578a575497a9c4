/-
# `RedisCore.Networking.SplitArgs` — `sdssplitargs` with its memory (sds.c)

`sdssplitargs` walks over a C string and looks up to three bytes ahead.  It collects a word
in a dynamic string of its own, which then becomes an entry of a vector that grows; on an
error it frees all of this again.

Here the line is memory up to and including its terminator, and a read behind that is a
fault, as is a block that is freed without being allocated.  The words are those of
`Query.sdssplitargs`, which has no memory.
-/
import RedisCore.Networking.Words

namespace RedisCore

namespace SplitArgs

open Query (Quote isHexDigit hexDigitToInt escaped Misquoted quotedLine)

inductive Fault
  | past
  | freed
  | fuel
  deriving DecidableEq, Repr

/-- A C string, without its terminator. -/
structure CString where
  bytes : Bytes
  noNul : 0 ∉ bytes

/-- `*(line + i)`: the terminator can be read, and nothing behind it. -/
def CString.read (line : CString) (i : Nat) : Except Fault UInt8 :=
  if i < line.bytes.length then .ok (line.bytes.getD i 0)
  else if i = line.bytes.length then .ok 0
  else .error .past

/-- A read that a condition in front of `&&` guards. -/
def CString.readIf (line : CString) (cond : Bool) (i : Nat) : Except Fault UInt8 :=
  if cond then line.read i else .ok 0

/-- The allocated blocks. -/
structure Heap where
  live : List Nat
  next : Nat
  below : ∀ a ∈ live, a < next
  nodup : live.Nodup

/-- `s_malloc`. -/
def Heap.alloc (h : Heap) : Heap × Nat :=
  (⟨h.next :: h.live, h.next + 1,
    fun a ha => (List.mem_cons.mp ha).elim (fun e => e ▸ Nat.lt_succ_self _)
      (fun ha => Nat.lt_succ_of_lt (h.below a ha)),
    List.nodup_cons.mpr ⟨fun ha => Nat.lt_irrefl _ (h.below _ ha), h.nodup⟩⟩, h.next)

/-- `s_free` of a block. -/
def Heap.free (h : Heap) (a : Nat) : Except Fault Heap :=
  if a ∈ h.live then
    .ok ⟨h.live.erase a, h.next, fun b hb => h.below b (List.mem_of_mem_erase hb), h.nodup.erase a⟩
  else .error .freed

/-- A dynamic string.  `sdscatlen` may move it; it is still one block, and keeps its name. -/
structure Sds where
  addr : Nat
  text : Bytes

/-- `sdsempty`. -/
def sdsempty (h : Heap) : Heap × Sds := (h.alloc.1, ⟨h.alloc.2, []⟩)

/-- What a pass of the loop over a token comes to, at a byte that is still to be skipped. -/
inductive Pass
  | more (q : Quote) (p : Nat) (text : Bytes)
  | done (p : Nat) (text : Bytes)
  | err

/-- A pass with `inq` set. -/
def passDouble (line : CString) (p : Nat) (text : Bytes) : Except Fault Pass := do
  let c ← line.read p
  let c₁ ← line.readIf (c = 92) (p + 1)
  let c₂ ← line.readIf (c = 92 ∧ c₁ = 120) (p + 2)
  let c₃ ← line.readIf (c = 92 ∧ c₁ = 120 ∧ isHexDigit c₂) (p + 3)
  if c = 92 ∧ c₁ = 120 ∧ isHexDigit c₂ ∧ isHexDigit c₃ then
    return .more .double (p + 3) (text ++ [hexDigitToInt c₂ * 16 + hexDigitToInt c₃])
  else if c = 92 ∧ c₁ ≠ 0 then return .more .double (p + 1) (text ++ [escaped c₁])
  else if c = 34 then do
    let next ← line.read (p + 1)
    return if next ≠ 0 ∧ !isspace next then .err else .done p text
  else if c = 0 then return .err
  else return .more .double p (text ++ [c])

/-- A pass with `insq` set. -/
def passSingle (line : CString) (p : Nat) (text : Bytes) : Except Fault Pass := do
  let c ← line.read p
  let c₁ ← line.readIf (c = 92) (p + 1)
  if c = 92 ∧ c₁ = 39 then return .more .single (p + 1) (text ++ [39])
  else if c = 39 then do
    let next ← line.read (p + 1)
    return if next ≠ 0 ∧ !isspace next then .err else .done p text
  else if c = 0 then return .err
  else return .more .single p (text ++ [c])

/-- A pass outside of quotes. -/
def passPlain (line : CString) (p : Nat) (text : Bytes) : Except Fault Pass := do
  let c ← line.read p
  if c = 32 ∨ c = 10 ∨ c = 13 ∨ c = 9 ∨ c = 0 then return .done p text
  else if c = 34 then return .more .double p text
  else if c = 39 then return .more .single p text
  else return .more .plain p (text ++ [c])

def pass (line : CString) : Quote → Nat → Bytes → Except Fault Pass
  | .double => passDouble line
  | .single => passSingle line
  | .plain => passPlain line

/-- `if (*p) p++`. -/
def advance (line : CString) (p : Nat) : Except Fault Nat := do
  let c ← line.read p
  return if c ≠ 0 then p + 1 else p

/-- The loop over a token: where it ends and the text, or nothing on an error. -/
def tokenLoop (line : CString) : Nat → Quote → Nat → Bytes → Except Fault (Option (Nat × Bytes))
  | 0, _, _, _ => .error .fuel
  | fuel + 1, q, p, text => do
      match ← pass line q p text with
      | .err => return none
      | .done p text => do
          let p ← advance line p
          return some (p, text)
      | .more q p text => do
          let p ← advance line p
          tokenLoop line fuel q p text

/-- The loop that skips blanks. -/
def skipBlanks (line : CString) : Nat → Nat → Except Fault Nat
  | 0, _ => .error .fuel
  | fuel + 1, p => do
      let c ← line.read p
      if c ≠ 0 ∧ isspace c then skipBlanks line fuel (p + 1) else return p

/-- The variables of `sdssplitargs`: the vector is a block with its entries. -/
structure Locals where
  p : Nat
  current : Option Sds
  vector : Option (Nat × List Sds)
  heap : Heap

/-- What is returned, `none` being `NULL`. -/
structure Result where
  vector : Option (Nat × List Sds)
  heap : Heap

def freeEach : List Sds → Heap → Except Fault Heap
  | [], h => .ok h
  | s :: strs, h => do
      let h ← h.free s.addr
      freeEach strs h

/-- A pointer that is freed, unless it is `NULL`. -/
def freeIf : Option Nat → Heap → Except Fault Heap
  | none, h => .ok h
  | some a, h => h.free a

/-- Behind the label `err`; the last entry is freed first. -/
def fail (s : Locals) : Except Fault Result := do
  let h ← freeEach (s.vector.elim [] Prod.snd).reverse s.heap
  let h ← freeIf (s.vector.map Prod.fst) h
  let h ← freeIf (s.current.map Sds.addr) h
  return ⟨none, h⟩

/-- `if (current == NULL) current = sdsempty()`. -/
def ensureCurrent (current : Option Sds) (h : Heap) : Heap × Sds :=
  match current with
  | none => sdsempty h
  | some s => (h, s)

/-- The vector, which is allocated if there is none. -/
def ensureVector (vector : Option (Nat × List Sds)) (h : Heap) : Heap × Nat × List Sds :=
  match vector with
  | none => (h.alloc.1, h.alloc.2, [])
  | some v => (h, v)

/-- The main loop of `sdssplitargs`. -/
def splitLoop (line : CString) : Nat → Locals → Except Fault Result
  | 0, _ => .error .fuel
  | fuel + 1, s => do
      let p ← skipBlanks line (line.bytes.length + 1) s.p
      let c ← line.read p
      if c ≠ 0 then do
        let (h, current) := ensureCurrent s.current s.heap
        match ← tokenLoop line (line.bytes.length + 1) .plain p current.text with
        | none => fail ⟨p, some current, s.vector, h⟩
        | some (p, text) =>
            let (h, addr, entries) := ensureVector s.vector h
            splitLoop line fuel ⟨p, none, some (addr, entries ++ [⟨current.addr, text⟩]), h⟩
      else
        let (h, vector) := ensureVector s.vector s.heap
        return ⟨some vector, h⟩

/-- `sdssplitargs`. -/
def sdssplitargs (line : CString) (h : Heap) : Except Fault Result :=
  splitLoop line (line.bytes.length + 1) ⟨0, none, none, h⟩

/-! ## Reading -/

/-- `s` is what is left of the line at `p`. -/
structure At (line : CString) (p : Nat) (s : Bytes) : Prop where
  le : p ≤ line.bytes.length
  rest : line.bytes.drop p = s

variable {line : CString} {p : Nat} {c : UInt8} {s : Bytes}

theorem At.len (h : At line p s) : p + s.length = line.bytes.length := by
  rw [← h.rest, List.length_drop]
  have := h.le
  omega

/-- Up to the terminator, a read gives what is left of the line, and then 0. -/
theorem At.read (h : At line p s) {k : Nat} (hk : k ≤ s.length) :
    line.read (p + k) = .ok (s.getD k 0) := by
  have hlen := h.len
  unfold CString.read
  split
  · rw [← h.rest, List.getD_eq_getElem?_getD, List.getD_eq_getElem?_getD, List.getElem?_drop]
  · rw [if_pos (by omega), List.getD_eq_getElem?_getD, List.getElem?_eq_none (by omega)]
    rfl

theorem At.here (h : At line p s) : line.read p = .ok (s.getD 0 0) := h.read (Nat.zero_le _)

theorem At.ne_zero (h : At line p s) (hc : c ∈ s) : c ≠ 0 := by
  rintro rfl
  rw [← h.rest] at hc
  exact line.noNul (List.mem_of_mem_drop hc)

theorem At.next (h : At line p (c :: s)) : At line (p + 1) s := by
  have hlen := h.len
  rw [List.length_cons] at hlen
  exact ⟨by omega, by rw [← List.drop_drop, h.rest, List.drop_one, List.tail_cons]⟩

theorem At.advance (h : At line p (c :: s)) : advance line p = .ok (p + 1) := by
  have hne := h.ne_zero List.mem_cons_self
  rw [SplitArgs.advance, h.here]
  simp [bind, Except.bind, pure, Except.pure, hne]

theorem At.advance_end (h : At line p []) : SplitArgs.advance line p = .ok p := by
  rw [SplitArgs.advance, h.here]
  rfl

/-- An end of what is left. -/
theorem At.suffix {t : Bytes} (h : At line p s) (ht : t <:+ s) :
    At line (line.bytes.length - t.length) t := by
  have hline : t <:+ line.bytes := ht.trans (h.rest ▸ List.drop_suffix _ _)
  exact ⟨Nat.sub_le _ _, (List.suffix_iff_eq_drop.mp hline).symm⟩

theorem at_zero (line : CString) : At line 0 line.bytes := ⟨Nat.zero_le _, rfl⟩

theorem bind_ok {α β : Type} (a : α) (f : α → Except Fault β) : (Except.ok a >>= f) = f a := rfl

/-! ## One pass -/

/-- The check behind a closing quote. -/
theorem At.closing (h : At line p (c :: s)) (text : Bytes) :
    (do let next ← line.read (p + 1)
        return if next ≠ 0 ∧ !isspace next then Pass.err else Pass.done p text) =
      .ok (if Query.closes s then Pass.done p text else Pass.err) := by
  rw [h.read (k := 1) (by simp), bind_ok]
  cases s with
  | nil => rfl
  | cons d s =>
      have hne := h.ne_zero (c := d) (by simp)
      cases hd : isspace d <;> simp [pure, Except.pure, Query.closes, hne, hd]

theorem passPlain_spec (h : At line p (c :: s)) (text : Bytes) :
    pass line .plain p text = .ok (
      if c = 32 ∨ c = 10 ∨ c = 13 ∨ c = 9 then .done p text
      else if c = 34 then .more .double p text
      else if c = 39 then .more .single p text
      else .more .plain p (text ++ [c])) := by
  have hne := h.ne_zero List.mem_cons_self
  rw [pass, passPlain, h.here, bind_ok]
  simp only [List.getD_cons_zero, hne, or_false]
  split_ifs <;> rfl

theorem passPlain_end (h : At line p []) (text : Bytes) :
    pass line .plain p text = .ok (.done p text) := by
  simp [pass, passPlain, h.here, bind_ok, pure, Except.pure]

/-- In double quotes, at a byte that is no backslash. -/
theorem passDouble_byte (h : At line p (c :: s)) (hc : c ≠ 92) (text : Bytes) :
    pass line .double p text = .ok (
      if c = 34 then if Query.closes s then .done p text else .err
      else .more .double p (text ++ [c])) := by
  have hne := h.ne_zero List.mem_cons_self
  have hclosing := h.closing text
  rw [pass, passDouble, h.here, bind_ok]
  simp only [List.getD_cons_zero, CString.readIf, hc, hne, decide_false, false_and, bind_ok,
    Bool.false_eq_true, if_false]
  split_ifs with h₁ h₂
  · rw [hclosing, if_pos h₂]
  · rw [hclosing, if_neg h₂]
  · rfl

/-- In double quotes, at two hexadecimal digits of an escape. -/
theorem passDouble_hex {a b : UInt8} (h : At line p (92 :: 120 :: a :: b :: s))
    (ha : isHexDigit a = true) (hb : isHexDigit b = true) (text : Bytes) :
    pass line .double p text =
      .ok (.more .double (p + 3) (text ++ [hexDigitToInt a * 16 + hexDigitToInt b])) := by
  have h₁ := h.read (k := 1) (by simp)
  have h₂ := h.read (k := 2) (by simp)
  have h₃ := h.read (k := 3) (by simp)
  simp [pass, passDouble, h.here, CString.readIf, h₁, h₂, h₃, bind_ok, ha, hb]
  rfl

/-- In double quotes, at any other escape. -/
theorem passDouble_escape {e : UInt8} (h : At line p (92 :: e :: s)) (hhex : ∀ a b t,
    e = 120 → s = a :: b :: t → ¬ (isHexDigit a = true ∧ isHexDigit b = true)) (text : Bytes) :
    pass line .double p text = .ok (.more .double (p + 1) (text ++ [escaped e])) := by
  have hne := h.ne_zero (c := e) (by simp)
  have h₁ := h.read (k := 1) (by simp)
  have h₂ := h.read (k := 2) (by simp)
  have hzero : isHexDigit 0 = false := by decide
  by_cases he : e = 120
  · subst he
    cases s with
    | nil => simp [pass, passDouble, h.here, CString.readIf, h₁, h₂, bind_ok, hzero, pure, Except.pure]
    | cons a s =>
        have h₃ := h.read (k := 3) (by simp)
        cases ha : isHexDigit a with
        | false => simp [pass, passDouble, h.here, CString.readIf, h₁, h₂, bind_ok, ha, pure, Except.pure]
        | true =>
            cases s with
            | nil =>
                simp [pass, passDouble, h.here, CString.readIf, h₁, h₂, h₃, bind_ok, hzero, pure,
                  Except.pure]
            | cons b s =>
                have hb : isHexDigit b = false := by
                  cases hb : isHexDigit b with
                  | false => rfl
                  | true => exact absurd ⟨ha, hb⟩ (hhex a b s rfl rfl)
                simp [pass, passDouble, h.here, CString.readIf, h₁, h₂, h₃, bind_ok, ha, hb]
                rfl
  · simp [pass, passDouble, h.here, CString.readIf, h₁, bind_ok, he, hne, pure, Except.pure]

/-- In double quotes, at a backslash at the end of the line. -/
theorem passDouble_last (h : At line p [92]) (text : Bytes) :
    pass line .double p text = .ok (.more .double p (text ++ [92])) := by
  have h₁ := h.read (k := 1) (by simp)
  simp [pass, passDouble, h.here, CString.readIf, h₁, bind_ok, pure, Except.pure]

theorem passDouble_end (h : At line p []) (text : Bytes) : pass line .double p text = .ok .err := by
  simp [pass, passDouble, h.here, CString.readIf, bind_ok, pure, Except.pure]

theorem passSingle_spec (h : At line p (c :: s)) (text : Bytes) :
    pass line .single p text = .ok (
      if c = 92 ∧ s.head? = some 39 then .more .single (p + 1) (text ++ [39])
      else if c = 39 then if Query.closes s then .done p text else .err
      else .more .single p (text ++ [c])) := by
  have hne := h.ne_zero List.mem_cons_self
  have hclosing := h.closing text
  have h₁ := h.read (k := 1) (by simp)
  have hhead : (c :: s).getD 1 0 = 39 ↔ s.head? = some 39 := by
    cases s <;> simp
  rw [pass, passSingle, h.here, bind_ok, List.getD_cons_zero]
  by_cases hc : c = 92
  · subst hc
    rw [CString.readIf, if_pos (by decide), h₁, bind_ok]
    by_cases hq : s.head? = some 39
    · simp only [hhead, hq, and_self, if_true]
      rfl
    · simp only [hhead, hq, and_false, if_false]
      rfl
  · rw [CString.readIf, if_neg (by simpa using hc), bind_ok]
    simp only [hc, hne, false_and, if_false]
    split_ifs with h₂ h₃
    · rw [hclosing, if_pos h₃]
    · rw [hclosing, if_neg h₃]
    · rfl

theorem passSingle_end (h : At line p []) (text : Bytes) : pass line .single p text = .ok .err := by
  simp [pass, passSingle, h.here, CString.readIf, bind_ok, pure, Except.pure]

/-! ## The loops -/

variable {q q' : Quote} {text text' : Bytes} {fuel : Nat}

theorem tokenLoop_more {p' : Nat} (hpass : pass line q p text = .ok (.more q' p' text'))
    (h : At line p' (c :: s)) :
    tokenLoop line (fuel + 1) q p text = tokenLoop line fuel q' (p' + 1) text' := by
  rw [tokenLoop, hpass, bind_ok]
  dsimp only
  rw [h.advance, bind_ok]

theorem tokenLoop_done (hpass : pass line q p text = .ok (.done p text'))
    (h : At line p (c :: s)) :
    tokenLoop line (fuel + 1) q p text =
      .ok (some (line.bytes.length - s.length, text')) := by
  have hlen := h.next.len
  rw [tokenLoop, hpass, bind_ok]
  dsimp only
  rw [h.advance, bind_ok, ← hlen, Nat.add_sub_cancel]
  rfl

theorem tokenLoop_err (hpass : pass line q p text = .ok .err) :
    tokenLoop line (fuel + 1) q p text = .ok none := by
  rw [tokenLoop, hpass, bind_ok]
  rfl

/-- Where a word ends in the line, and its text. -/
def place (line : CString) (t : Bytes × Bytes) : Nat × Bytes := (line.bytes.length - t.2.length, t.1)

/-- The loop over a token finds the token. -/
theorem tokenLoop_spec : ∀ (fuel : Nat) {q : Quote} {p : Nat} {s : Bytes} (text : Bytes),
    At line p s → s.length < fuel →
    tokenLoop line fuel q p text = .ok ((Query.splitToken q text s).map (place line)) := by
  intro fuel
  induction fuel with
  | zero => intro q p s text _ hf; omega
  | succ fuel ih =>
      intro q p s text h hf
      cases q with
      | plain =>
          cases s with
          | nil =>
              have hlen : p = line.bytes.length := h.len
              rw [tokenLoop, passPlain_end h, bind_ok, Query.splitToken]
              dsimp only
              rw [h.advance_end, bind_ok, hlen]
              rfl
          | cons c s =>
              rw [List.length_cons] at hf
              have hpass := passPlain_spec h text
              have hrest := fun q' text' => @ih q' _ _ text' h.next (by omega)
              rw [Query.splitToken]
              split_ifs at hpass ⊢ with h₁ h₂ h₃
              · exact tokenLoop_done hpass h
              · rw [tokenLoop_more hpass h, hrest]
              · rw [tokenLoop_more hpass h, hrest]
              · rw [tokenLoop_more hpass h, hrest]
      | double =>
          cases s with
          | nil =>
              rw [tokenLoop_err (passDouble_end h text), Query.splitToken]
              rfl
          | cons c s =>
              rw [List.length_cons] at hf
              by_cases hc : c = 92
              · subst hc
                cases s with
                | nil =>
                    rw [tokenLoop_more (passDouble_last h text) h, ih _ h.next (by omega),
                      Query.splitToken.eq_def .double text]
                    simp
                | cons e s =>
                    rw [List.length_cons] at hf
                    by_cases hhex : ∃ a b t, e = 120 ∧ s = a :: b :: t ∧ isHexDigit a = true ∧
                        isHexDigit b = true
                    · obtain ⟨a, b, t, rfl, rfl, ha, hb⟩ := hhex
                      rw [List.length_cons, List.length_cons] at hf
                      rw [tokenLoop_more (passDouble_hex h ha hb text) h.next.next.next,
                        ih _ h.next.next.next.next (by omega), Query.splitToken_hex ha hb]
                    · have hno : ∀ a b t, e = 120 → s = a :: b :: t →
                          ¬ (isHexDigit a = true ∧ isHexDigit b = true) :=
                        fun a b t he hs hab => hhex ⟨a, b, t, he, hs, hab⟩
                      rw [tokenLoop_more (passDouble_escape h hno text) h.next,
                        ih _ h.next.next (by omega), Query.splitToken_escape hno]
              · have hpass := passDouble_byte h hc text
                rw [Query.splitToken.eq_def .double text]
                simp only [hc, if_false]
                split_ifs at hpass ⊢ with h₁ h₂
                · exact tokenLoop_done hpass h
                · exact tokenLoop_err hpass
                · rw [tokenLoop_more hpass h, ih _ h.next (by omega)]
      | single =>
          cases s with
          | nil =>
              rw [tokenLoop_err (passSingle_end h text), Query.splitToken]
              rfl
          | cons c s =>
              rw [List.length_cons] at hf
              have hpass := passSingle_spec h text
              rw [Query.splitToken.eq_def .single text]
              by_cases hc : c = 92
              · subst hc
                cases s with
                | nil =>
                    rw [tokenLoop_more hpass h, ih _ h.next (by omega)]
                    simp
                | cons e s =>
                    rw [List.length_cons] at hf
                    by_cases he : e = 39
                    · subst he
                      rw [tokenLoop_more hpass h.next, ih _ h.next.next (by omega)]
                      simp
                    · rw [if_neg (by simpa using he)] at hpass
                      rw [tokenLoop_more hpass h, ih _ h.next (by simpa using by omega)]
                      simp [he]
              · rw [if_neg (fun hq => hc hq.1)] at hpass
                simp only [hc, if_false]
                split_ifs at hpass ⊢ with h₁ h₂
                · exact tokenLoop_done hpass h
                · exact tokenLoop_err hpass
                · rw [tokenLoop_more hpass h, ih _ h.next (by omega)]

theorem skipBlanks_spec : ∀ (fuel : Nat) {p : Nat} {s : Bytes}, At line p s → s.length < fuel →
    ∃ p', skipBlanks line fuel p = .ok p' ∧ At line p' (s.dropWhile isspace) := by
  intro fuel
  induction fuel with
  | zero => intro p s _ hf; omega
  | succ fuel ih =>
      intro p s h hf
      rw [skipBlanks, h.here, bind_ok]
      cases s with
      | nil => exact ⟨p, rfl, h⟩
      | cons c s =>
          rw [List.length_cons] at hf
          have hne := h.ne_zero List.mem_cons_self
          rw [List.getD_cons_zero]
          cases hc : isspace c with
          | true =>
              rw [if_pos ⟨hne, rfl⟩, List.dropWhile_cons_of_pos hc]
              exact ih h.next (by omega)
          | false =>
              rw [if_neg (by simp), List.dropWhile_cons_of_neg (by simp [hc])]
              exact ⟨p, rfl, h⟩

/-! ## The memory -/

variable {h h₀ : Heap} {l : List Nat}

theorem Heap.free_spec {a : Nat} (hl : h.live.Perm (a :: l)) :
    ∃ h', h.free a = .ok h' ∧ h'.live.Perm l := by
  have ha : a ∈ h.live := hl.mem_iff.mpr List.mem_cons_self
  refine ⟨_, if_pos ha, ?_⟩
  exact (List.cons_perm_iff_perm_erase.mp hl.symm).2.symm

theorem freeEach_spec : ∀ (strs : List Sds) {h : Heap},
    h.live.Perm (strs.map Sds.addr ++ l) → ∃ h', freeEach strs h = .ok h' ∧ h'.live.Perm l := by
  intro strs
  induction strs with
  | nil => intro h hl; exact ⟨h, rfl, hl⟩
  | cons s strs ih =>
      intro h hl
      obtain ⟨h₁, hfree, hl₁⟩ := Heap.free_spec hl
      obtain ⟨h', heach, hl'⟩ := ih hl₁
      exact ⟨h', by rw [freeEach, hfree, bind_ok, heach], hl'⟩

/-- The blocks of a vector: its own, and one for each entry. -/
def blocks : Option (Nat × List Sds) → List Nat
  | none => []
  | some (a, strs) => a :: strs.map Sds.addr

/-- Behind `err` everything is given back: the entries, the vector and the current string. -/
theorem fail_spec {s : Locals} {cur : Sds} (hcur : s.current = some cur)
    (hl : s.heap.live.Perm (cur.addr :: (blocks s.vector ++ l))) :
    ∃ r, fail s = .ok r ∧ r.vector = none ∧ r.heap.live.Perm l := by
  cases hv : s.vector with
  | none =>
      rw [hv] at hl
      obtain ⟨h', hfree, hl'⟩ := Heap.free_spec hl
      refine ⟨⟨none, h'⟩, ?_, rfl, hl'⟩
      simp only [fail, hv, hcur, Option.elim_none, List.reverse_nil, freeEach, Option.map_none,
        Option.map_some, freeIf, bind_ok, hfree]
      rfl
  | some v =>
      obtain ⟨a, strs⟩ := v
      rw [hv] at hl
      have hl₀ : s.heap.live.Perm (strs.reverse.map Sds.addr ++ (a :: cur.addr :: l)) := by
        refine hl.trans (List.perm_iff_count.mpr (fun x => ?_))
        simp only [blocks, List.map_reverse, List.count_append, List.count_cons, List.count_reverse]
        omega
      obtain ⟨h₁, heach, hl₁⟩ := freeEach_spec _ hl₀
      obtain ⟨h₂, hfree₂, hl₂⟩ := Heap.free_spec hl₁
      obtain ⟨h₃, hfree₃, hl₃⟩ := Heap.free_spec hl₂
      refine ⟨⟨none, h₃⟩, ?_, rfl, hl₃⟩
      simp only [fail, hv, hcur, Option.elim_some, Option.map_some, freeIf, heach, bind_ok, hfree₂,
        hfree₃]
      rfl

theorem ensureVector_spec (vector : Option (Nat × List Sds)) (hl : h.live.Perm (blocks vector ++ l)) :
    ∃ h' addr, ensureVector vector h = (h', addr, vector.elim [] Prod.snd) ∧
      h'.live.Perm (blocks (some (addr, vector.elim [] Prod.snd)) ++ l) := by
  cases vector with
  | none => exact ⟨_, _, rfl, hl.cons _⟩
  | some v => exact ⟨h, v.1, rfl, hl⟩

/-- What comes of the line, by what its words are. -/
def Outcome (entries : List Sds) (l : List Nat) (r : Result) : Option (List Bytes) → Prop
  | none => r.vector = none ∧ r.heap.live.Perm l
  | some argv => ∃ addr strs, r.vector = some (addr, entries ++ strs) ∧ strs.map Sds.text = argv ∧
      r.heap.live.Perm (blocks r.vector ++ l)

/-- The main loop finds the words, and accounts for its memory. -/
theorem splitLoop_spec : ∀ (fuel : Nat) {s : Locals} {rest : Bytes} {words : Option (List Bytes)},
    At line s.p rest → rest.length < fuel → s.current = none →
    s.heap.live.Perm (blocks s.vector ++ l) → Query.splitLoop fuel rest = .ok words →
    ∃ r, splitLoop line fuel s = .ok r ∧ Outcome (s.vector.elim [] Prod.snd) l r words := by
  intro fuel
  induction fuel with
  | zero => intro s rest words _ hf; omega
  | succ fuel ih =>
      intro s rest words hat hf hcur hl hwords
      have hlen := hat.len
      obtain ⟨p', hskip, hat'⟩ := skipBlanks_spec (line.bytes.length + 1) hat (by omega)
      have hdrop : (rest.dropWhile isspace).length ≤ rest.length :=
        (List.dropWhile_suffix _).length_le
      rw [splitLoop, hskip, bind_ok, hat'.here, bind_ok]
      rw [Query.splitLoop] at hwords
      cases hrest : rest.dropWhile isspace with
      | nil =>
          rw [hrest] at hwords
          cases hwords
          obtain ⟨h', addr, hvec, hl'⟩ := ensureVector_spec s.vector hl
          rw [if_neg (by simp), hvec]
          exact ⟨_, rfl, addr, [], by simp, rfl, hl'⟩
      | cons c t =>
          rw [hrest] at hat' hwords hdrop
          rw [List.length_cons] at hdrop
          have hne := hat'.ne_zero List.mem_cons_self
          rw [List.getD_cons_zero, if_pos hne, hcur]
          dsimp only [ensureCurrent, sdsempty]
          have htok := tokenLoop_spec (line.bytes.length + 1) [] hat'
            (by rw [List.length_cons]; omega) (q := .plain)
          rw [htok, bind_ok]
          dsimp only at hwords
          cases htoken : Query.splitToken .plain [] (c :: t) with
          | none =>
              rw [htoken] at hwords
              cases hwords
              obtain ⟨r, hfail, hout⟩ := @fail_spec l
                ⟨p', some ⟨s.heap.alloc.2, []⟩, s.vector, s.heap.alloc.1⟩ ⟨s.heap.alloc.2, []⟩ rfl
                (hl.cons _)
              exact ⟨r, hfail, hout⟩
          | some token =>
              obtain ⟨text, rest'⟩ := token
              have hlt := Query.splitToken_lt htoken
              have hat'' := hat'.suffix (Query.splitToken_suffix htoken)
              rw [htoken] at hwords
              dsimp only [Option.map_some, place] at hwords ⊢
              obtain ⟨vector, hvector⟩ := Query.splitLoop_ok fuel rest' (by omega)
              rw [hvector] at hwords
              obtain ⟨h', addr, hvec, hl'⟩ := @ensureVector_spec s.heap.alloc.1 (s.heap.alloc.2 :: l)
                s.vector ((hl.cons s.heap.next).trans List.perm_middle.symm)
              rw [hvec]
              dsimp only
              -- the new string is now an entry
              have hentry : h'.live.Perm (blocks (some (addr,
                  s.vector.elim [] Prod.snd ++ [⟨s.heap.alloc.2, text⟩])) ++ l) := by
                simpa [blocks] using hl'
              obtain ⟨r, hloop, hout⟩ := @ih ⟨line.bytes.length - rest'.length, none,
                some (addr, s.vector.elim [] Prod.snd ++ [⟨s.heap.alloc.2, text⟩]), h'⟩ rest' vector
                hat'' (by omega) rfl hentry hvector
              refine ⟨r, hloop, ?_⟩
              cases hwords
              cases vector with
              | none => exact hout
              | some argv =>
                  obtain ⟨a, strs, hr, htext, hlive⟩ := hout
                  refine ⟨a, ⟨s.heap.alloc.2, text⟩ :: strs, ?_, ?_, hlive⟩
                  · rw [hr]
                    simp
                  · rw [List.map_cons, htext]

/-- The words of a C string, with the memory they are in. -/
theorem sdssplitargs_spec (line : CString) (h : Heap) {words : Option (List Bytes)}
    (hwords : Query.splitLoop (line.bytes.length + 1) line.bytes = .ok words) :
    ∃ r, sdssplitargs line h = .ok r ∧ Outcome [] h.live r words :=
  splitLoop_spec (line.bytes.length + 1) (at_zero line) (Nat.lt_succ_self _) rfl
    (List.Perm.refl _) hwords

/-- **Quoting and splitting.**  Strings that `sdscatrepr` quotes, joined by spaces, are split
into what they were.  On every C string `sdssplitargs` ends and reads nothing behind the
terminator; it returns `NULL` exactly where the line is misquoted, and then nothing it has
allocated is left; otherwise what is left is the vector and its strings. -/
theorem sdssplitargs_quoting (h : Heap) :
    (∀ argv : List Bytes, ∃ r addr strs,
      sdssplitargs ⟨quotedLine argv, Query.quotedLine_noNul argv⟩ h = .ok r ∧
      r.vector = some (addr, strs) ∧ strs.map Sds.text = argv) ∧
    ∀ line : CString, ∃ r, sdssplitargs line h = .ok r ∧
      (r.vector = none ↔ Misquoted line.bytes) ∧
      (r.vector = none → r.heap.live.Perm h.live) ∧
      ∀ addr strs, r.vector = some (addr, strs) →
        r.heap.live.Perm (addr :: strs.map Sds.addr ++ h.live) := by
  constructor
  · intro argv
    obtain ⟨r, hr, addr, strs, hvec, htext, _⟩ := sdssplitargs_spec
      ⟨quotedLine argv, Query.quotedLine_noNul argv⟩ h
      (Query.splitLoop_quotedLine argv _ (Nat.lt_succ_self _))
    exact ⟨r, addr, strs, hr, hvec, htext⟩
  · intro line
    obtain ⟨words, hwords⟩ := Query.splitLoop_ok _ line.bytes (Nat.lt_succ_self _)
    obtain ⟨r, hr, hout⟩ := sdssplitargs_spec line h hwords
    have hnone := Query.splitLoop_none _ line.bytes (Nat.lt_succ_self _)
    rw [hwords] at hnone
    refine ⟨r, hr, ?_⟩
    cases words with
    | none =>
        obtain ⟨hvec, hlive⟩ := hout
        exact ⟨⟨fun _ => hnone.mp rfl, fun _ => hvec⟩, fun _ => hlive,
          fun addr strs hsome => absurd (hvec.symm.trans hsome) (by simp)⟩
    | some argv =>
        obtain ⟨addr, strs, hvec, htext, hlive⟩ := hout
        refine ⟨⟨fun h => absurd (hvec.symm.trans h) (by simp),
          fun h => absurd (hnone.mpr h) (by simp)⟩,
          fun h => absurd (hvec.symm.trans h) (by simp), fun a strs' hsome => ?_⟩
        rw [hsome] at hlive
        exact hlive

end SplitArgs

end RedisCore
