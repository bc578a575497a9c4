/-
# `RedisCore.Lzf.Decode` — what the decompressor reads

On any bytes at all the decompressor stays inside of its two buffers: it checks the ends of both
before it reads or writes, and a back reference against the start of the output.  On the bytes of
tokens it writes the text that the tokens tell; a back reference that does not overlap is copied
at once, the others byte by byte.
-/
import RedisCore.Lib.BackRef
import RedisCore.Lzf.Code

namespace RedisCore

namespace Lzf

open BackRef Splice

variable {α β : Type} {data out : Bytes} {outLen ip ref n : Nat}

/-- A function gives something that satisfies `Q`, or it ends early as `E` allows. -/
def Ends (E : Stop → Prop) (m : M α) (Q : α → Prop) : Prop :=
  match m with
  | .ok a => Q a
  | .error e => E e

/-- A function does not touch memory outside of its buffers, and what it gives satisfies `Q`. -/
abbrev Tame (m : M α) (Q : α → Prop) : Prop := Ends (fun e => e ≠ .memory) m Q

section ends

variable {E : Stop → Prop} {m m' : M α} {f : α → M β} {Q Q' : α → Prop} {a : α}

theorem ok_bind : ((.ok a : M α) >>= f) = f a := rfl

theorem ends_bind {Q : β → Prop} : Ends E (m >>= f) Q ↔ Ends E m fun a => Ends E (f a) Q := by
  cases m with
  | ok a => exact Iff.rfl
  | error e => exact Iff.rfl

theorem ends_ite {c : Prop} [Decidable c] :
    Ends E (if c then m else m') Q ↔ if c then Ends E m Q else Ends E m' Q := by
  split <;> rfl

theorem Ends.mono (h : Ends E m Q) (hQ : ∀ a, Q a → Q' a) : Ends E m Q' := by
  cases m with
  | ok a => exact hQ a h
  | error e => exact h

theorem ends_of_eq (h : m = .ok a) (hQ : Q a) : Ends E m Q := by
  rw [h]
  exact hQ

end ends

theorem byteAt_eq {b : UInt8} (h : data[ip]? = some b) : byteAt data ip = .ok b := by
  unfold byteAt
  rw [h]

theorem ends_byteAt {E : Stop → Prop} {Q : UInt8 → Prop} (h : ip < data.length)
    (hQ : ∀ b, data[ip]? = some b → Q b) : Ends E (byteAt data ip) Q := by
  have hget := List.getElem?_eq_getElem h
  exact ends_of_eq (byteAt_eq hget) (hQ _ hget)

/-! ## Copying -/

theorem copyRun_eq (hin : ip + n ≤ data.length) (hout : out.length + n ≤ outLen) :
    copyRun data outLen n ip out = .ok (out ++ slice data ip n) := by
  induction n generalizing ip out with
  | zero => simp [copyRun, slice, pure, Except.pure]
  | succ n ih =>
      have hget := List.getElem?_eq_getElem (show ip < data.length by omega)
      have hpush : push outLen out data[ip] = .ok (out ++ [data[ip]]) := if_pos (by omega)
      have hslice : slice data ip (n + 1) = data[ip] :: slice data (ip + 1) n := by
        unfold slice
        rw [List.drop_eq_getElem_cons (show ip < data.length by omega), List.take_succ_cons]
      rw [copyRun, byteAt_eq hget, ok_bind, hpush, ok_bind, ih (by omega) (by simp; omega), hslice, List.append_assoc]
      rfl

theorem copyRef_eq (href : ref < out.length) (hout : out.length + n ≤ outLen) :
    copyRef outLen n ref out = .ok (copyBack (out.length - ref) n out) := by
  induction n generalizing ref out with
  | zero => rfl
  | succ n ih =>
      have hget := List.getElem?_eq_getElem href
      have hpush : push outLen out out[ref] = .ok (out ++ [out[ref]]) := if_pos (by omega)
      have hlen : (out ++ [out[ref]]).length = out.length + 1 := by simp
      have hback : out[out.length - (out.length - ref)]? = some out[ref] := by
        rw [← hget]
        congr 1
        omega
      rw [copyRef, byteAt_eq hget, copyBack_succ hback, ok_bind, hpush, ok_bind, ih (by omega) (by omega), hlen, Nat.add_sub_add_right]

theorem copyBlock_eq (href : ref + n ≤ out.length) (hout : out.length + n ≤ outLen) :
    copyBlock outLen ref n out = .ok (copyBack (out.length - ref) n out) := by
  unfold copyBlock
  rw [if_pos ⟨href, hout⟩, copyBack_apart (by omega) (by omega), Nat.sub_sub_self (by omega)]
  rfl

/-- Either way of copying adds the cells of the reference. -/
theorem copyEither_eq (href : ref < out.length) (hout : out.length + n ≤ outLen) (far : Prop)
    [Decidable far] : (if far ∧ out.length ≥ ref + n then copyBlock outLen ref n out
      else copyRef outLen n ref out) = .ok (copyBack (out.length - ref) n out) := by
  split
  · next h => exact copyBlock_eq h.2 hout
  · exact copyRef_eq href hout

/-! ## Any bytes -/

/-- An iteration reads on, and writes within its buffer. -/
def Advanced (outLen ip : Nat) (out : Bytes) (r : Nat × Bytes) : Prop :=
  ip < r.1 ∧ out.length < r.2.length ∧ r.2.length ≤ outLen

theorem literalRun_tame (ctrl : Nat) :
    Tame (literalRun data outLen ctrl ip out) (Advanced outLen ip out) := by
  unfold literalRun
  refine ends_ite.mpr ?_
  split
  · exact Stop.noConfusion
  · refine ends_ite.mpr ?_
    split
    · exact Stop.noConfusion
    · refine ends_bind.mpr (ends_of_eq (copyRun_eq (by omega) (by omega)) ?_)
      refine ⟨by omega, ?_, ?_⟩
      · rw [List.length_append, length_slice (by omega)]
        omega
      · rw [List.length_append, length_slice (by omega)]
        omega

theorem refLength_tame {len : Nat} (hip : ip < data.length) :
    Tame (refLength data len ip) fun r => ip ≤ r.2 ∧ r.2 < data.length := by
  unfold refLength
  refine ends_ite.mpr ?_
  split
  · refine ends_bind.mpr (ends_byteAt hip fun b _ => ?_)
    refine ends_ite.mpr ?_
    split
    · exact Stop.noConfusion
    · exact ⟨Nat.le_succ ip, by dsimp only; omega⟩
  · exact ⟨Nat.le_refl ip, hip⟩

theorem backRef_tame (ctrl : Nat) :
    Tame (backRef data outLen ctrl ip out) (Advanced outLen ip out) := by
  unfold backRef
  refine ends_ite.mpr ?_
  split
  · exact Stop.noConfusion
  · refine ends_bind.mpr ((refLength_tame (by omega)).mono ?_)
    rintro ⟨len, ip'⟩ ⟨hle, hlt⟩
    refine ends_bind.mpr (ends_byteAt hlt fun b _ => ?_)
    refine ends_ite.mpr ?_
    split
    · exact Stop.noConfusion
    · next hout =>
      refine ends_ite.mpr ?_
      split
      · exact Stop.noConfusion
      · next href =>
        refine ends_bind.mpr (ends_of_eq (copyEither_eq (by omega) (by omega) _) ?_)
        refine ⟨by dsimp only at hle ⊢; omega, ?_, ?_⟩
        · rw [length_copyBack (by omega) (by omega)]
          omega
        · rw [length_copyBack (by omega) (by omega)]
          omega

theorem decompressLoop_tame {fuel : Nat} (hip : ip < data.length) (hfuel : data.length ≤ ip + fuel)
    (hout : out.length ≤ outLen) : Tame (decompressLoop data outLen fuel ip out) fun r =>
      out.length < r.length ∧ r.length ≤ outLen := by
  induction fuel generalizing ip out with
  | zero => omega
  | succ fuel ih =>
      refine ends_bind.mpr (ends_byteAt hip fun b _ => ?_)
      have hstep : Tame (if b.toNat < 1 <<< 5 then literalRun data outLen b.toNat (ip + 1) out
          else backRef data outLen b.toNat (ip + 1) out) (Advanced outLen (ip + 1) out) := by
        refine ends_ite.mpr ?_
        split
        · exact literalRun_tame _
        · exact backRef_tame _
      refine ends_bind.mpr (hstep.mono ?_)
      rintro ⟨ip', out'⟩ ⟨hread, hmore, hroom⟩
      dsimp only at hread hmore hroom
      refine ends_ite.mpr ?_
      split
      · next hnext => exact (ih hnext (by omega) hroom).mono fun r hr => ⟨hmore.trans hr.1, hr.2⟩
      · exact ⟨hmore, hroom⟩

/-- **Robustness.**  On whatever bytes it is given, a single one at least, the decompressor reads
and writes inside of its buffers; it refuses them, or it writes something. -/
theorem lzfDecompress_tame (data : Bytes) (outLen : Nat) (hdata : data ≠ []) :
    Tame (lzfDecompress data outLen) fun out => 0 < out.length ∧ out.length ≤ outLen :=
  decompressLoop_tame (List.length_pos_of_ne_nil hdata) (Nat.le_add_left _ _) (Nat.zero_le _)

/-- A long reference that ends with its length. -/
theorem lzfDecompress_tame_cut : lzfDecompress [0, 7, 224, 9] 100 = .error .EINVAL ∧
    Tame (lzfDecompress [0, 7, 224, 9] 100) fun out => 0 < out.length ∧ out.length ≤ 100 :=
  ⟨by decide +kernel, lzfDecompress_tame [0, 7, 224, 9] 100 (by decide)⟩

/-! ## The bytes of tokens -/

/-- A back reference of `len` bytes and two. -/
def refBytes (off len : Nat) : Bytes :=
  if len < 7 then [UInt8.ofNat ((off >>> 8) + (len <<< 5)), UInt8.ofNat off]
  else [UInt8.ofNat ((off >>> 8) + (7 <<< 5)), UInt8.ofNat (len - 7), UInt8.ofNat off]

def tokenBytes : Token UInt8 → Bytes
  | .lit run => UInt8.ofNat (run.length + 255) :: run
  | .ref dist len => refBytes (dist - 1) (len - 2)

def stream (ts : List (Token UInt8)) : Bytes := ts.flatMap tokenBytes

/-- A token that has a form in bytes, behind a text that is long enough for it. -/
def Fits (text : Bytes) : Token UInt8 → Prop
  | .lit run => 0 < run.length ∧ run.length ≤ MAX_LIT
  | .ref dist len => 0 < dist ∧ dist ≤ MAX_OFF ∧ dist ≤ text.length ∧ 3 ≤ len ∧ len ≤ MAX_REF

def AllFit (text : Bytes) : List (Token UInt8) → Prop
  | [] => True
  | t :: ts => Fits text t ∧ AllFit (t.add text) ts

variable {text rest : Bytes} {t : Token UInt8} {ts : List (Token UInt8)}

theorem stream_concat : stream (ts ++ [t]) = stream ts ++ tokenBytes t := by
  simp [stream]

theorem allFit_concat : AllFit text (ts ++ [t]) ↔ AllFit text ts ∧ Fits (expand text ts) t := by
  induction ts generalizing text with
  | nil => simp [AllFit]
  | cons u ts ih => simp [AllFit, ih, and_assoc]

theorem length_add (h : Fits text t) : text.length < (t.add text).length := by
  cases t with
  | lit run =>
      have hrun := h.1
      simp only [Token.add, List.length_append]
      omega
  | ref dist len =>
      obtain ⟨hpos, -, hdist, hlen, -⟩ := h
      rw [Token.add, length_copyBack hpos hdist]
      omega

theorem length_expand (h : AllFit text ts) : text.length ≤ (expand text ts).length := by
  induction ts generalizing text with
  | nil => exact Nat.le_refl _
  | cons t ts ih => exact (length_add h.1).le.trans (ih h.2)

theorem tokenBytes_ne_nil : tokenBytes t ≠ [] := by
  cases t with
  | lit run => exact List.cons_ne_nil _ _
  | ref dist len =>
      show refBytes _ _ ≠ []
      unfold refBytes
      split <;> exact List.cons_ne_nil _ _

theorem getElem?_of_drop (h : data.drop ip = text) (k : Nat) : data[ip + k]? = text[k]? := by
  rw [← h, List.getElem?_drop]

/-- The bytes of a token are read from the stream, and its cells are written. -/
def Reads (data : Bytes) (outLen ip : Nat) (out : Bytes) (t : Token UInt8) : Prop :=
  ∃ b, data[ip]? = some b ∧
    (if b.toNat < 1 <<< 5 then literalRun data outLen b.toNat (ip + 1) out
      else backRef data outLen b.toNat (ip + 1) out) =
      .ok (ip + (tokenBytes t).length, t.add out)

theorem reads_lit {run : Bytes} (hdrop : data.drop ip = tokenBytes (.lit run) ++ rest)
    (hfit : Fits out (.lit run)) (hout : (out ++ run).length ≤ outLen) :
    Reads data outLen ip out (.lit run) := by
  obtain ⟨hpos, hmax⟩ := hfit
  have hmax : run.length ≤ 32 := hmax
  have hb : (UInt8.ofNat (run.length + 255)).toNat = run.length - 1 := by
    rw [UInt8.toNat_ofNat']
    omega
  have hget : data[ip]? = some (UInt8.ofNat (run.length + 255)) := getElem?_of_drop hdrop 0
  have hdrop' : data.drop (ip + 1) = run ++ rest := by
    rw [← List.drop_drop, hdrop]
    rfl
  have hlen := congrArg List.length hdrop'
  rw [List.length_drop, List.length_append] at hlen
  rw [List.length_append] at hout
  refine ⟨_, hget, ?_⟩
  rw [hb, if_pos (by show run.length - 1 < 32; omega)]
  unfold literalRun
  rw [Nat.sub_add_cancel hpos, if_neg (by omega), if_neg (by omega),
    copyRun_eq (by omega) (by omega)]
  show Except.ok (ip + 1 + run.length, out ++ slice data (ip + 1) run.length) = _
  unfold slice
  rw [hdrop', List.take_left]
  simp [tokenBytes, Token.add]
  omega

/-- A back reference from its three fields. -/
theorem backRef_eq {ctrl len : Nat} {b : UInt8} (off : Nat) (hip : ip < data.length) {ip' : Nat}
    (hlen : refLength data (ctrl >>> 5) ip = .ok (len, ip')) (hb : data[ip']? = some b)
    (hoff : (ctrl % 32) * 256 + b.toNat = off) (hback : off < out.length)
    (hout : out.length + (len + 2) ≤ outLen) :
    backRef data outLen ctrl ip out = .ok (ip' + 1, copyBack (off + 1) (len + 2) out) := by
  have hctrl : ((ctrl &&& 0x1f) <<< 8 : Nat) = (ctrl % 32) * 256 := by
    rw [show (0x1f : Nat) = 2 ^ 5 - 1 from rfl, Nat.and_two_pow_sub_one_eq_mod, Nat.shiftLeft_eq]
  unfold backRef
  rw [if_neg (by omega), hlen, hctrl, ok_bind]
  show (byteAt data ip' >>= _) = _
  rw [byteAt_eq hb, ok_bind]
  have href : ((out.length : Int) - ((ctrl % 32) * 256 : Nat) - 1 - b.toNat).toNat =
      out.length - (off + 1) := by omega
  dsimp only
  rw [if_neg (by omega), if_neg (by omega), href, copyEither_eq (by omega) hout, ok_bind]
  show Except.ok (ip' + 1, copyBack (out.length - (out.length - (off + 1))) (len + 2) out) = _
  rw [Nat.sub_sub_self (by omega)]

theorem reads_ref {dist len : Nat} (hdrop : data.drop ip = tokenBytes (.ref dist len) ++ rest)
    (hfit : Fits out (.ref dist len)) (hout : out.length + len ≤ outLen) :
    Reads data outLen ip out (.ref dist len) := by
  obtain ⟨hpos, hoff, hdist, hmin, hmax⟩ := hfit
  have hoff : dist ≤ 8192 := hoff
  have hmax : len ≤ 264 := hmax
  have hshift : (dist - 1) >>> 8 = (dist - 1) / 256 := Nat.shiftRight_eq_div_pow _ 8
  have hlow : (UInt8.ofNat (dist - 1)).toNat = (dist - 1) % 256 := UInt8.toNat_ofNat'
  have hbytes : tokenBytes (.ref dist len) = refBytes (dist - 1) (len - 2) := rfl
  unfold Reads Token.add
  rw [hbytes] at hdrop ⊢
  unfold refBytes at hdrop ⊢
  rw [hshift] at hdrop ⊢
  split at hdrop
  · next hshort =>
    have hlen : data.length - ip = 2 + rest.length := by
      rw [← List.length_drop, hdrop, List.length_append]
      rfl
    have hb : (UInt8.ofNat ((dist - 1) / 256 + (len - 2) <<< 5)).toNat =
        (dist - 1) / 256 + (len - 2) * 32 := by
      rw [UInt8.toNat_ofNat', Nat.shiftLeft_eq]
      omega
    rw [if_pos hshort]
    refine ⟨_, getElem?_of_drop hdrop 0, ?_⟩
    rw [hb, if_neg (by show ¬ _ < 32; omega)]
    have hctrl : ((dist - 1) / 256 + (len - 2) * 32) >>> 5 = len - 2 := by
      rw [Nat.shiftRight_eq_div_pow]
      omega
    have hfield : refLength data (len - 2) (ip + 1) = .ok (len - 2, ip + 1) :=
      if_neg (by omega)
    rw [backRef_eq (dist - 1) (by omega) (by rw [hctrl, hfield])
      (getElem?_of_drop hdrop 1) (by rw [hlow]; omega) (by omega) (by omega)]
    show Except.ok (ip + 2, copyBack (dist - 1 + 1) (len - 2 + 2) out) = _
    rw [Nat.sub_add_cancel hpos, Nat.sub_add_cancel (by omega)]
    rfl
  · next hlong =>
    have hlen : data.length - ip = 3 + rest.length := by
      rw [← List.length_drop, hdrop, List.length_append]
      rfl
    rw [if_neg hlong]
    have hb : (UInt8.ofNat ((dist - 1) / 256 + 7 <<< 5)).toNat = (dist - 1) / 256 + 224 := by
      rw [UInt8.toNat_ofNat']
      show ((dist - 1) / 256 + 224) % 256 = _
      omega
    have hmore : (UInt8.ofNat (len - 2 - 7)).toNat = len - 9 := by
      rw [UInt8.toNat_ofNat']
      omega
    refine ⟨_, getElem?_of_drop hdrop 0, ?_⟩
    rw [hb, if_neg (by show ¬ _ < 32; omega)]
    have hctrl : ((dist - 1) / 256 + 224) >>> 5 = 7 := by
      rw [Nat.shiftRight_eq_div_pow]
      omega
    have hfield : refLength data 7 (ip + 1) = .ok (len - 2, ip + 2) := by
      unfold refLength
      rw [if_pos rfl, byteAt_eq (getElem?_of_drop hdrop 1), ok_bind, if_neg (by omega)]
      show Except.ok (7 + (UInt8.ofNat (len - 2 - 7)).toNat, ip + 2) = _
      rw [hmore, show 7 + (len - 9) = len - 2 by omega]
    rw [backRef_eq (dist - 1) (by omega) (by rw [hctrl, hfield])
      (getElem?_of_drop hdrop 2) (by rw [hlow]; omega) (by omega) (by omega)]
    show Except.ok (ip + 3, copyBack (dist - 1 + 1) (len - 2 + 2) out) = _
    rw [Nat.sub_add_cancel hpos, Nat.sub_add_cancel (by omega)]
    rfl

theorem reads_token (hdrop : data.drop ip = tokenBytes t ++ rest) (hfit : Fits out t)
    (hout : (t.add out).length ≤ outLen) : Reads data outLen ip out t := by
  cases t with
  | lit run => exact reads_lit hdrop hfit hout
  | ref dist len =>
      rw [Token.add, length_copyBack hfit.1 hfit.2.2.1] at hout
      exact reads_ref hdrop hfit hout

theorem decompressLoop_stream {fuel : Nat} (hne : ts ≠ []) (hdrop : data.drop ip = stream ts)
    (hfit : AllFit out ts) (hout : (expand out ts).length ≤ outLen) (hfuel : ts.length ≤ fuel) :
    decompressLoop data outLen fuel ip out = .ok (expand out ts) := by
  induction ts generalizing ip out fuel with
  | nil => exact (hne rfl).elim
  | cons t ts ih =>
      obtain ⟨fuel, rfl⟩ : ∃ n, fuel = n + 1 := ⟨fuel - 1, by simp at hfuel; omega⟩
      have hsplit : data.drop ip = tokenBytes t ++ stream ts := hdrop
      have hdrop' : data.drop (ip + (tokenBytes t).length) = stream ts := by
        rw [← List.drop_drop, hsplit, List.drop_left]
      obtain ⟨b, hget, hstep⟩ := reads_token hsplit hfit.1 ((length_expand hfit.2).trans hout)
      have hlen := congrArg List.length hdrop'
      rw [List.length_drop] at hlen
      rw [decompressLoop, byteAt_eq hget, ok_bind, hstep, ok_bind]
      dsimp only
      rcases ts with _ | ⟨u, us⟩
      · rw [if_neg (by simp [stream] at hlen; omega)]
        rfl
      · have hmore := List.length_pos_of_ne_nil (@tokenBytes_ne_nil u)
        have hlong : (stream (u :: us)).length = (tokenBytes u).length + (stream us).length := by
          simp [stream]
        rw [if_pos (by omega)]
        exact ih (List.cons_ne_nil u us) hdrop' hfit.2 hout (Nat.le_of_succ_le_succ hfuel)

theorem length_le_stream : ts.length ≤ (stream ts).length := by
  induction ts with
  | nil => exact Nat.le_refl 0
  | cons t ts ih =>
      have hmore := List.length_pos_of_ne_nil (@tokenBytes_ne_nil t)
      have hlong : (stream (t :: ts)).length = (tokenBytes t).length + (stream ts).length := by
        simp [stream]
      rw [List.length_cons]
      omega

/-- **Reading.**  The decompressor writes the text that tokens tell. -/
theorem lzfDecompress_stream (hne : ts ≠ []) (hfit : AllFit [] ts)
    (hout : (expand [] ts).length ≤ outLen) :
    lzfDecompress (stream ts) outLen = .ok (expand [] ts) :=
  decompressLoop_stream hne rfl hfit hout length_le_stream

end Lzf

end RedisCore
