/-
# `RedisCore.Dict.Scan` — the stateless cursor

`dictScan` and `rev`, and what a scan from cursor 0 back to cursor 0 is worth while
the table is changed between the calls.

Reading the bits of the cursor backwards, every bucket of every table size is an
interval (`Lib.RevCursor`), and the cursor is the point up to which everything has
been seen.  One call moves the point to the end of an interval of the smaller table,
so it has to visit all of that interval that lies ahead of the point.

The loop over the larger table does not do that.  It starts at the cursor's own
bucket and increments the high bits as an ordinary number until they are zero, so
the buckets whose high bits are *numerically* smaller are left out.  In the reversed
order some of those are still ahead.  `ScanOk` says that none of them holds anything,
and then the scan is complete.
-/
import RedisCore.Dict.Ops
import RedisCore.Dict.Refine
import RedisCore.Lib.RevCursor

namespace RedisCore

open RevCursor

variable {α β : Type}

/-- The loop of `rev`; `s` is halved before each turn. -/
def revLoop : Nat → Nat → BitVec 64 → BitVec 64 → BitVec 64
  | 0, _, _, v => v
  | fuel + 1, s, mask, v =>
      let s := s >>> 1
      if s > 0 then
        let mask := mask ^^^ (mask <<< s)
        revLoop fuel s mask (((v >>> s) &&& mask) ||| ((v <<< s) &&& ~~~mask))
      else v

/-- `rev`: six swaps of neighbouring blocks, then `s` is zero. -/
def rev (v : BitVec 64) : BitVec 64 := revLoop 7 64 (~~~0#64) v

/-- The mask of a table as an `unsigned long`. -/
def Dictht.mask64 (ht : Dictht α β) : BitVec 64 := BitVec.ofNat 64 ht.sizemask

/-- The `do`-`while` over the larger table: the entries emitted, and the cursor it
leaves.  It makes at most one turn per bucket. -/
def scanExpansions (t1 : Dictht α β) (m0 m1 : BitVec 64) :
    Nat → BitVec 64 → List (DictEntry α β) × BitVec 64
  | 0, v => ([], v)
  | fuel + 1, v =>
      let emitted := t1.chain (v &&& m1).toNat
      let v := (((v ||| m0) + 1) &&& ~~~m0) ||| (v &&& m0)
      if v &&& (m0 ^^^ m1) = 0 then (emitted, v)
      else
        let (more, v) := scanExpansions t1 m0 m1 fuel v
        (emitted ++ more, v)

/-- The smaller and the larger table of a rehash. -/
def scanTables (d : Dict α β) : Dictht α β × Dictht α β :=
  if d.ht0.size > d.ht1.size then (d.ht1, d.ht0) else (d.ht0, d.ht1)

/-- `dictScan`: the entries passed to the callback, in order, and the next cursor. -/
def dictScan (d : Dict α β) (v : BitVec 64) : List (DictEntry α β) × BitVec 64 :=
  if dictSize d = 0 then ([], 0)
  else
    let (emitted, m0, v) :=
      if !dictIsRehashing d then
        let m0 := d.ht0.mask64
        (d.ht0.chain (v &&& m0).toNat, m0, v)
      else
        let (t0, t1) := scanTables d
        let m0 := t0.mask64
        let m1 := t1.mask64
        let (more, v') := scanExpansions t1 m0 m1 t1.size v
        (t0.chain (v &&& m0).toNat ++ more, m0, v')
    let v := v ||| ~~~m0
    (emitted, rev (rev v + 1))

/-! ## `rev` reverses the bits -/

/-- A swap of blocks of width `s` sends bit `i` to bit `i ^^^ s`. -/
theorem getLsbD_swap {s : Nat} {mask : BitVec 64}
    (hmask : ∀ i < 64, mask.getLsbD i = decide (i &&& s = 0))
    (hs : ∀ i < 64, i ^^^ s = if i &&& s = 0 then i + s else i - s)
    (hle : ∀ i < 64, i &&& s ≠ 0 → s ≤ i) (v : BitVec 64) :
    ∀ i < 64, (((v >>> s) &&& mask) ||| ((v <<< s) &&& ~~~mask)).getLsbD i
      = v.getLsbD (i ^^^ s) := by
  intro i hi
  simp only [BitVec.getLsbD_or, BitVec.getLsbD_and, BitVec.getLsbD_not,
    BitVec.getLsbD_ushiftRight, BitVec.getLsbD_shiftLeft, hmask i hi, hs i hi, hi]
  by_cases h : i &&& s = 0
  · simp [h, Nat.add_comm]
  · have := hle i hi h
    have hlt : ¬ i < s := by omega
    simp [h, hlt]

/-- The six block widths and masks `rev` runs through. -/
def revSwaps : List (Nat × BitVec 64) :=
  [(32, 0x00000000FFFFFFFF#64), (16, 0x0000FFFF0000FFFF#64), (8, 0x00FF00FF00FF00FF#64),
    (4, 0x0F0F0F0F0F0F0F0F#64), (2, 0x3333333333333333#64), (1, 0x5555555555555555#64)]

theorem revSwaps_spec : ∀ p ∈ revSwaps,
    (∀ i < 64, p.2.getLsbD i = decide (i &&& p.1 = 0)) ∧
    (∀ i < 64, i ^^^ p.1 = if i &&& p.1 = 0 then i + p.1 else i - p.1) ∧
    (∀ i < 64, i &&& p.1 ≠ 0 → p.1 ≤ i) ∧ (∀ i < 64, i ^^^ p.1 < 64) := by
  decide

/-- One swap of `rev`. -/
def revSwap (p : Nat × BitVec 64) (v : BitVec 64) : BitVec 64 :=
  ((v >>> p.1) &&& p.2) ||| ((v <<< p.1) &&& ~~~p.2)

theorem rev_eq_swaps (v : BitVec 64) :
    rev v = revSwaps.foldl (fun v p => revSwap p v) v := rfl

/-- A row of swaps composes the moves of the bits. -/
theorem getLsbD_foldl_swap : ∀ (ps : List (Nat × BitVec 64)),
    (∀ p ∈ ps, (∀ i < 64, p.2.getLsbD i = decide (i &&& p.1 = 0)) ∧
      (∀ i < 64, i ^^^ p.1 = if i &&& p.1 = 0 then i + p.1 else i - p.1) ∧
      (∀ i < 64, i &&& p.1 ≠ 0 → p.1 ≤ i) ∧ (∀ i < 64, i ^^^ p.1 < 64)) →
    ∀ (v : BitVec 64) (i : Nat), i < 64 →
      (ps.foldl (fun v p => revSwap p v) v).getLsbD i
        = v.getLsbD (ps.foldr (fun p i => i ^^^ p.1) i) ∧
      ps.foldr (fun p i => i ^^^ p.1) i < 64 := by
  intro ps
  induction ps with
  | nil => intro _ v i hi; exact ⟨rfl, hi⟩
  | cons p ps ih =>
      intro hps v i hi
      obtain ⟨hm, hs, hle, hlt⟩ := hps p List.mem_cons_self
      obtain ⟨hget, hbound⟩ := ih (fun q hq => hps q (List.mem_cons_of_mem p hq)) (revSwap p v) i hi
      refine ⟨?_, hlt _ hbound⟩
      rw [List.foldl_cons, hget]
      exact getLsbD_swap hm hs hle v _ hbound

theorem rev_eq_reverse (v : BitVec 64) : rev v = v.reverse := by
  apply BitVec.eq_of_getLsbD_eq
  intro i hi
  have hxor : ∀ i < 64, 63 - i = revSwaps.foldr (fun p i => i ^^^ p.1) i := by decide
  rw [rev_eq_swaps, (getLsbD_foldl_swap _ revSwaps_spec v i hi).1, ← hxor i hi,
    BitVec.getLsbD_reverse, BitVec.getMsbD_eq_getLsbD]
  simp [hi]

/-! ## One call -/

theorem HtInv.mask64_eq {t : DictType α} {ht : Dictht α β} (h : HtInv t ht) {k : Nat}
    (hk : ht.size = 2 ^ k) : ht.mask64 = lowMask 64 k := by
  rw [Dictht.mask64, h.mask, hk]
  rfl

/-- The loop emits every expansion from the cursor's own bucket on. -/
theorem scanExpansions_emits {t1 : Dictht α β} {a b : Nat} (hab : a ≤ b) (hb : b ≤ 64)
    {x : Nat} (hx : x < 2 ^ b) {e : DictEntry α β} (he : e ∈ t1.chain x) :
    ∀ (fuel : Nat) (v : BitVec 64), 2 ^ b / 2 ^ a - v.toNat % 2 ^ b / 2 ^ a ≤ fuel →
      x % 2 ^ a = v.toNat % 2 ^ a → v.toNat % 2 ^ b / 2 ^ a ≤ x / 2 ^ a →
      e ∈ (scanExpansions t1 (lowMask 64 a) (lowMask 64 b) fuel v).1 := by
  have ha0 := Nat.two_pow_pos a
  have hsplit : 2 ^ b = 2 ^ a * 2 ^ (b - a) := by rw [← Nat.pow_add]; congr 1; omega
  have hquot : 2 ^ b / 2 ^ a = 2 ^ (b - a) := by
    rw [hsplit]; exact Nat.mul_div_cancel_left _ ha0
  have hxa : x / 2 ^ a < 2 ^ (b - a) := by
    apply Nat.div_lt_of_lt_mul
    rwa [← hsplit]
  intro fuel
  induction fuel with
  | zero => intro v hfuel _ hle; omega
  | succ fuel ih =>
      intro v hfuel hlow hle
      have hdvd : 2 ^ a ∣ 2 ^ b := Nat.pow_dvd_pow 2 hab
      have hvlow : v.toNat % 2 ^ b % 2 ^ a = v.toNat % 2 ^ a := Nat.mod_mod_of_dvd _ hdvd
      have hemit : x = v.toNat % 2 ^ b → e ∈ t1.chain (v &&& lowMask 64 b).toNat := by
        intro hxv
        rwa [toNat_and_lowMask hb, ← hxv]
      have hnext : e ∉ t1.chain (v &&& lowMask 64 b).toNat →
          v.toNat % 2 ^ b / 2 ^ a + 1 ≤ x / 2 ^ a := by
        intro hne
        have hne' : x ≠ v.toNat % 2 ^ b := fun hxv => hne (hemit hxv)
        have h1 := Nat.div_add_mod x (2 ^ a)
        have h2 := Nat.div_add_mod (v.toNat % 2 ^ b) (2 ^ a)
        rcases Nat.lt_or_eq_of_le hle with hlt | heq
        · exact hlt
        · rw [hvlow] at h2
          rw [← heq, hlow] at h1
          exact absurd (h1.symm.trans h2) hne'
      -- the next turn stands at the next expansion
      have hhigh := expand_high hab hb v
      simp only [scanExpansions]
      split
      · next hstop =>
          by_contra hne
          have hlt := hnext hne
          have hzero := (and_xor_lowMask_eq_zero hab hb (expand a v)).mp hstop
          rw [hhigh, Nat.mod_eq_of_lt (Nat.lt_of_le_of_lt hlt hxa)] at hzero
          exact absurd hzero (Nat.succ_ne_zero _)
      · next hgo =>
          rw [List.mem_append]
          by_cases hmem : e ∈ t1.chain (v &&& lowMask 64 b).toNat
          · exact Or.inl hmem
          · right
            have hlt := hnext hmem
            rw [Nat.mod_eq_of_lt (Nat.lt_of_le_of_lt hlt hxa)] at hhigh
            apply ih (expand a v)
            · rw [hhigh]; omega
            · rw [expand_low (Nat.le_trans hab hb)]; exact hlow
            · rw [hhigh]; exact hlt

theorem scanExpansions_low {t1 : Dictht α β} {a : Nat} (ha : a ≤ 64) (m1 : BitVec 64) :
    ∀ (fuel : Nat) (v : BitVec 64),
      (scanExpansions t1 (lowMask 64 a) m1 fuel v).2.toNat % 2 ^ a = v.toNat % 2 ^ a := by
  intro fuel
  induction fuel with
  | zero => intro v; rfl
  | succ fuel ih =>
      intro v
      have hlow := expand_low ha v
      simp only [scanExpansions]
      split
      · exact hlow
      · exact (ih (expand a v)).trans hlow

/-- The new cursor only depends on the bits under the mask. -/
theorem advance_congr {a : Nat} (ha : a ≤ 64) {u v : BitVec 64}
    (h : u.toNat % 2 ^ a = v.toNat % 2 ^ a) : advance a u = advance a v := by
  apply pos_injective
  rw [pos_advance ha, pos_advance ha, (mod_eq_iff_pos_div_eq ha u v).mp h]

/-- What one call has to be told about the larger table of a rehash: the expansions
the loop leaves out, and that are ahead of the cursor, hold nothing. -/
def ScanOk (d : Dict α β) (v : BitVec 64) : Prop :=
  dictIsRehashing d = true →
    let t0 := (scanTables d).1
    let t1 := (scanTables d).2
    ∀ x < t1.size, x % t0.size = v.toNat % t0.size → x < v.toNat % t1.size →
      pos (BitVec.ofNat 64 (v.toNat % t1.size)) < pos (BitVec.ofNat 64 x) → t1.chain x = []

/-- The point of the reversed order at which a key stands. -/
def hash64 (t : DictType α) (key : α) : BitVec 64 := BitVec.ofNat 64 (t.hashFunction key)

theorem hash64_mod (t : DictType α) (key : α) {k : Nat} (hk : k ≤ 64) :
    (hash64 t key).toNat % 2 ^ k = t.hashFunction key % 2 ^ k := by
  rw [hash64, BitVec.toNat_ofNat, Nat.mod_mod_of_dvd _ (Nat.pow_dvd_pow 2 hk)]

theorem pow_le_of_small {k : Nat} (h : 2 ^ k < 2 ^ 31) : k ≤ 64 := by
  have := (Nat.pow_lt_pow_iff_right (by decide)).mp h
  omega

theorem HtInv.size_pow {t : DictType α} {ht : Dictht α β} (h : HtInv t ht) (hne : ht.size ≠ 0) :
    ∃ k, ht.size = 2 ^ k := by
  obtain h0 | hk := h.pow
  · exact absurd h0 hne
  · exact hk

/-- Both tables of a rehash, by size. -/
theorem scanTables_spec {t : DictType α} {d : Dict α β} (h : Inv t d) (hs : Small d)
    (hr : dictIsRehashing d = true) : ∃ a b, a ≤ b ∧ b ≤ 64 ∧
      HtInv t (scanTables d).1 ∧ (scanTables d).1.size = 2 ^ a ∧
      HtInv t (scanTables d).2 ∧ (scanTables d).2.size = 2 ^ b ∧
      ∀ e ∈ d.entries, e ∈ (scanTables d).1.entries ∨ e ∈ (scanTables d).2.entries := by
  obtain ⟨idx, hidx⟩ := Option.isSome_iff_exists.mp hr
  obtain ⟨i, hi⟩ := h.ht0.size_pow (h.behind idx hidx).2
  obtain ⟨j, hj⟩ := h.ht1.size_pow (h.ht1_size_ne hidx)
  have hi64 := pow_le_of_small (hi ▸ hs.1)
  have hj64 := pow_le_of_small (hj ▸ hs.2)
  unfold scanTables
  split
  · next hgt =>
      have hji : j ≤ i := by
        rw [hi, hj] at hgt
        exact Nat.le_of_lt ((Nat.pow_lt_pow_iff_right (by decide)).mp hgt)
      refine ⟨j, i, hji, hi64, h.ht1, hj, h.ht0, hi, fun e he => ?_⟩
      exact (List.mem_append.mp he).symm
  · next hgt =>
      have hij : i ≤ j := by
        rw [hi, hj] at hgt
        exact (Nat.pow_le_pow_iff_right (by decide)).mp (Nat.le_of_not_lt hgt)
      exact ⟨i, j, hij, hj64, h.ht0, hi, h.ht1, hj, fun e he => List.mem_append.mp he⟩

theorem rev_step_eq (a : Nat) (v : BitVec 64) :
    rev (rev (v ||| ~~~(lowMask 64 a)) + 1) = advance a v := by
  rw [rev_eq_reverse, rev_eq_reverse]
  rfl

/-- **One call.**  An entry that the new cursor leaves behind was behind the old one or
has just been passed to the callback. -/
theorem dictScan_step {t : DictType α} {d : Dict α β} (h : Inv t d) (hs : Small d) (v : BitVec 64)
    (hok : ScanOk d v) {e : DictEntry α β} (he : e ∈ d.entries)
    (hcov : pos (hash64 t e.key) < pos (dictScan d v).2 ∨ (dictScan d v).2 = 0#64) :
    pos (hash64 t e.key) < pos v ∨ e ∈ (dictScan d v).1 := by
  have hsize : dictSize d ≠ 0 := by
    rw [dictSize_eq h]
    exact Nat.ne_of_gt (List.length_pos_of_mem he)
  cases hr : dictIsRehashing d with
  | false =>
      have hnil := h.ht1_entries_nil (dictIsRehashing_eq_false.mp hr)
      have he0 : e ∈ d.ht0.entries := by
        rw [Dict.entries, hnil, List.append_nil] at he
        exact he
      have hne : d.ht0.size ≠ 0 := by
        intro h0
        rw [Dictht.entries, h.ht0.entries_nil h0] at he0
        exact absurd he0 List.not_mem_nil
      obtain ⟨k, hk⟩ := h.ht0.size_pow hne
      have hk64 := pow_le_of_small (hk ▸ hs.1)
      have heq : dictScan d v = (d.ht0.chain (v.toNat % 2 ^ k), advance k v) := by
        simp only [dictScan, hsize, if_false, hr, Bool.not_false, if_true, h.ht0.mask64_eq hk,
          toNat_and_lowMask hk64, rev_step_eq]
      rw [heq] at hcov ⊢
      rcases covered_of_advance hk64 v _ hcov with hlt | hmod
      · exact Or.inl hlt
      · right
        rw [hash64_mod t e.key hk64] at hmod
        rw [← hmod, ← h.ht0.index_eq hk]
        exact h.ht0.mem_chain he0
  | true =>
      obtain ⟨a, b, hab, hb, h0, hsz0, h1, hsz1, hmem⟩ := scanTables_spec h hs hr
      have ha : a ≤ 64 := Nat.le_trans hab hb
      have heq : dictScan d v = ((scanTables d).1.chain (v.toNat % 2 ^ a) ++
          (scanExpansions (scanTables d).2 (lowMask 64 a) (lowMask 64 b) (2 ^ b) v).1,
          advance a v) := by
        have hadv := advance_congr ha
          (@scanExpansions_low _ _ (scanTables d).2 _ ha (lowMask 64 b) (2 ^ b) v)
        simp only [dictScan, hsize, if_false, hr, Bool.not_true, Bool.false_eq_true,
          h0.mask64_eq hsz0, h1.mask64_eq hsz1, hsz1, toNat_and_lowMask ha, rev_step_eq, hadv]
      rw [heq] at hcov ⊢
      rcases covered_of_advance ha v _ hcov with hlt | hmod
      · exact Or.inl hlt
      rw [hash64_mod t e.key ha] at hmod
      rw [List.mem_append]
      rcases hmem e he with he0 | he1
      · refine Or.inr (Or.inl ?_)
        rw [← hmod, ← h0.index_eq hsz0]
        exact h0.mem_chain he0
      · -- the entry is in the larger table: ahead of the loop's start, or skipped
        have hchain := h1.mem_chain he1
        rw [h1.index_eq hsz1] at hchain
        have hx : t.hashFunction e.key % 2 ^ b < 2 ^ b := Nat.mod_lt _ (Nat.two_pow_pos b)
        have hxlow : t.hashFunction e.key % 2 ^ b % 2 ^ a = v.toNat % 2 ^ a := by
          rw [Nat.mod_mod_of_dvd _ (Nat.pow_dvd_pow 2 hab), hmod]
        by_cases hge : v.toNat % 2 ^ b ≤ t.hashFunction e.key % 2 ^ b
        · refine Or.inr (Or.inr ?_)
          exact scanExpansions_emits hab hb hx hchain _ v
            (Nat.le_trans (Nat.sub_le _ _) (Nat.div_le_self _ _)) hxlow (Nat.div_le_div_right hge)
        · left
          have hskip : ¬ pos (BitVec.ofNat 64 (v.toNat % 2 ^ b))
              < pos (BitVec.ofNat 64 (t.hashFunction e.key % 2 ^ b)) := by
            intro hlt
            have hnil := hok hr _ (by rw [hsz1]; exact hx) (by rw [hsz0]; exact hxlow)
              (by rw [hsz1]; omega) (by rw [hsz1]; exact hlt)
            rw [hnil] at hchain
            exact absurd hchain List.not_mem_nil
          have hbkt := hash64_mod t e.key hb
          apply pos_lt_of_bucket_le hb
          · rw [hbkt]; exact fun heq => hge (Nat.le_of_eq heq.symm)
          · rw [hbkt]; exact Nat.le_of_not_lt hskip

/-! ## A whole scan -/

/-- The calls that may come between two calls of a scan: anything that leaves the
entry of a key alone. -/
def DictOp.Spares (t : DictType α) (key : α) : DictOp α β → Prop
  | .replace _ key' _ _ | .delete key' | .deleteNoFree key' => t.keyCompare key' key = false
  | _ => True

/-- A scan: every round is a stretch of other calls followed by one `dictScan` with
the cursor the one before returned.  The result has everything the callback saw, the
last cursor, and the state and cursor of every call. -/
def scanRun (t : DictType α) (d : Dict α β) (v : BitVec 64) :
    List (List (DictOp α β)) →
      List (DictEntry α β) × BitVec 64 × List (Dict α β × BitVec 64)
  | [] => ((dictScan d v).1, (dictScan d v).2, [(d, v)])
  | ops :: rounds =>
      let (emitted, v') := dictScan d v
      let (more, last, calls) := scanRun t (dictRun t d ops).1 v' rounds
      (emitted ++ more, last, (d, v) :: calls)

/-- No state of the scan has a table of `2 ^ 31` buckets or more. -/
def SmallScan (t : DictType α) (d : Dict α β) : List (List (DictOp α β)) → Prop
  | [] => Small d
  | ops :: rounds => SmallRun t d ops ∧ SmallScan t (dictRun t d ops).1 rounds

/-! ### An entry that is spared stays -/

section Keeps

variable {t : DictType α} {d : Dict α β} {e : DictEntry α β}

theorem mem_of_perm_cons {x : DictEntry α β} {E E' : List (DictEntry α β)} {key : α}
    (he : e ∈ E) (hp : E.Perm (x :: E')) (hx : t.keyCompare key x.key = true)
    (hne : t.keyCompare key e.key = false) : e ∈ E' := by
  rcases List.mem_cons.mp (hp.mem_iff.mp he) with rfl | h
  · rw [hx] at hne
    exact absurd hne (by simp)
  · exact h

theorem dictSetVal_keeps (hl : t.Lawful) (h : Inv t d) {key : α} {r : Ref} {x : DictEntry α β}
    (hx : entryAt d r = some x) (hk : t.keyCompare key x.key = true) (v : β)
    (he : e ∈ d.entries) (hne : t.keyCompare key e.key = false) :
    e ∈ (dictSetVal d r v).entries := by
  obtain ⟨rest, hp, _, hp'⟩ := dictSetVal_spec hl h hx v
  exact hp'.mem_iff.mpr (List.mem_cons_of_mem _ (mem_of_perm_cons he hp hk hne))

theorem dictAdd_keeps (hl : t.Lawful) (canResize : Bool) (h : Inv t d) (key : α) (val junk : β)
    (hsmall : Small (dictAdd t canResize d key val junk).1) (he : e ∈ d.entries) :
    e ∈ (dictAdd t canResize d key val junk).1.entries := by
  obtain ⟨hinv, hs⟩ := dictAddRaw_spec hl canResize h key junk ((dictAdd_small canResize).mp hsmall)
  rw [dictAdd_eq]
  cases hr : (dictAddRaw t canResize d key junk).2 with
  | none =>
      rw [hr] at hs
      exact hs.1.mem_iff.mpr he
  | some r =>
      rw [hr] at hs
      obtain ⟨hp, hentry, habsent⟩ := hs
      exact dictSetVal_keeps hl hinv hentry (hl.refl key) val
        (hp.mem_iff.mpr (List.mem_cons_of_mem _ he)) (habsent e he)

theorem dictGenericDelete_keeps (hl : t.Lawful) (h : Inv t d) (key : α) (he : e ∈ d.entries)
    (hsp : t.keyCompare key e.key = false) : e ∈ (dictGenericDelete t d key).1.entries := by
  obtain ⟨_, hspec⟩ := dictGenericDelete_spec hl h key
  cases hr : (dictGenericDelete t d key).2 with
  | true =>
      rw [hr] at hspec
      obtain ⟨x, hk, hp⟩ := hspec
      exact mem_of_perm_cons he hp hk hsp
  | false => rw [hr] at hspec; exact hspec.1.mem_iff.mpr he

/-- One call that spares the entry. -/
theorem dictStep_keeps (hl : t.Lawful) (h : Inv t d) (hs : Small d) (op : DictOp α β)
    (hsmall : Small (dictStep t d op).1) (he : e ∈ d.entries) (hsp : op.Spares t e.key) :
    e ∈ (dictStep t d op).1.entries := by
  have hden : Denotes hl d (absMap hl d) := ⟨h, rfl⟩
  cases op with
  | add canResize key val junk => exact dictAdd_keeps hl canResize h key val junk hsmall he
  | addRaw canResize key junk =>
      obtain ⟨_, hspec⟩ := dictAddRaw_spec hl canResize h key junk hsmall
      cases hr : (dictAddRaw t canResize d key junk).2 with
      | none => rw [hr] at hspec; exact hspec.1.mem_iff.mpr he
      | some r => rw [hr] at hspec; exact hspec.1.mem_iff.mpr (List.mem_cons_of_mem _ he)
  | replace canResize key val junk =>
      have hadds := dictReplace_small hl canResize h hs hsmall
      have hkeep := dictAdd_keeps hl canResize h key val junk hadds he
      have hinv : Inv t (dictAdd t canResize d key val junk).1 := by
        obtain ⟨hnew, hold⟩ := add_refines hl canResize hden key val junk hadds
        by_cases hm : absMap hl d (absKey hl key) = none
        · exact (hnew hm).1.inv
        · exact (hold hm).1.inv
      obtain ⟨hsame, hf⟩ := dictFind_spec hl hinv key
      have hkeep' := hsame.perm.mem_iff.mpr hkeep
      show e ∈ (dictReplace t canResize d key val junk).1.entries
      rw [dictReplace_eq]
      cases (dictAdd t canResize d key val junk).2 with
      | true => exact hkeep
      | false =>
          cases hr : (dictFind t (dictAdd t canResize d key val junk).1 key).2 with
          | none => exact hkeep'
          | some r =>
              rw [hr] at hf
              obtain ⟨x, hx, hk⟩ := hf
              exact dictSetVal_keeps hl hsame.inv hx hk val hkeep' hsp
  | delete key => exact dictGenericDelete_keeps hl h key he hsp
  | deleteNoFree key => exact dictGenericDelete_keeps hl h key he hsp
  | find key => exact (dictFind_spec hl h key).1.perm.mem_iff.mpr he
  | fetchValue key => exact (dictFind_spec hl h key).1.perm.mem_iff.mpr he
  | rehash n => exact (dictRehash_spec hl h n).perm.mem_iff.mpr he
  | expand size => exact (dictExpand_same h size hsmall).perm.mem_iff.mpr he
  | resize canResize => exact (dictResize_same h canResize hsmall).perm.mem_iff.mpr he
  | iterStart => exact he
  | iterRelease => exact he

theorem dictRun_keeps (hl : t.Lawful) (ops : List (DictOp α β)) : ∀ {d : Dict α β}, Inv t d →
    SmallRun t d ops → e ∈ d.entries → (∀ op ∈ ops, op.Spares t e.key) →
      e ∈ (dictRun t d ops).1.entries ∧ Inv t (dictRun t d ops).1 ∧ Small (dictRun t d ops).1 := by
  induction ops with
  | nil => intro d h hs he _; exact ⟨he, h, hs⟩
  | cons op ops ih =>
      intro d h hs he hsp
      have hkeep := dictStep_keeps hl h hs.1 op hs.2.head he (hsp op List.mem_cons_self)
      have hden : Denotes hl d (absMap hl d) := ⟨h, rfl⟩
      exact ih (step_refines hl hden hs.1 op hs.2.head).1.inv hs.2 hkeep
        (fun op' hop' => hsp op' (List.mem_cons_of_mem op hop'))

end Keeps

/-- **A whole scan.**  An entry the calls in between spare is behind the cursor the
scan was entered with, or the callback gets it. -/
theorem scanRun_covers {t : DictType α} (hl : t.Lawful) {e : DictEntry α β}
    (rounds : List (List (DictOp α β))) : ∀ {d : Dict α β} (v : BitVec 64), Inv t d →
    SmallScan t d rounds → e ∈ d.entries → (∀ ops ∈ rounds, ∀ op ∈ ops, op.Spares t e.key) →
    (∀ c ∈ (scanRun t d v rounds).2.2, ScanOk c.1 c.2) → (scanRun t d v rounds).2.1 = 0#64 →
      pos (hash64 t e.key) < pos v ∨ e ∈ (scanRun t d v rounds).1 := by
  induction rounds with
  | nil =>
      intro d v h hs he _ hok hend
      exact dictScan_step h hs v (hok (d, v) List.mem_cons_self) he (Or.inr hend)
  | cons ops rounds ih =>
      intro d v h hs he hsp hok hend
      obtain ⟨he', hinv', _⟩ :=
        dictRun_keeps hl ops h hs.1 he (hsp ops List.mem_cons_self)
      have hrest := ih (dictScan d v).2 hinv' hs.2 he'
        (fun o ho => hsp o (List.mem_cons_of_mem ops ho))
        (fun c hc => hok c (List.mem_cons_of_mem _ hc)) hend
      rcases hrest with hlt | hmem
      · rcases dictScan_step h hs.1.head v (hok (d, v) List.mem_cons_self) he (Or.inl hlt) with
          hlt' | hmem
        · exact Or.inl hlt'
        · exact Or.inr (List.mem_append_left _ hmem)
      · exact Or.inr (List.mem_append_right _ hmem)

/-- A scan from cursor 0 back to cursor 0 passes every entry that is there throughout
to the callback, when no call skips entries that lie ahead of its cursor. -/
theorem dictScan_complete {t : DictType α} (hl : t.Lawful) (before : List (DictOp α β))
    (hbefore : SmallRun t dictCreate before) (rounds : List (List (DictOp α β)))
    (hsmall : SmallScan t (dictRun t dictCreate before).1 rounds)
    (hend : (scanRun t (dictRun t dictCreate before).1 0#64 rounds).2.1 = 0#64)
    (hok : ∀ c ∈ (scanRun t (dictRun t dictCreate before).1 0#64 rounds).2.2, ScanOk c.1 c.2)
    {e : DictEntry α β} (he : e ∈ (dictRun t dictCreate before).1.entries)
    (hspared : ∀ ops ∈ rounds, ∀ op ∈ ops, op.Spares t e.key) :
    e ∈ (scanRun t (dictRun t dictCreate before).1 0#64 rounds).1 := by
  have hinv := (run_refines hl before (denotes_dictCreate hl) hbefore).1.inv
  rcases scanRun_covers hl rounds 0#64 hinv hsmall he hspared hok hend with hlt | hmem
  · rw [pos_zero] at hlt
    exact absurd hlt (Nat.not_lt_zero _)
  · exact hmem

/-! ## Two runs -/

instance decidableSmallScan (t : DictType α) :
    ∀ (d : Dict α β) (rounds : List (List (DictOp α β))), Decidable (SmallScan t d rounds)
  | d, [] => inferInstanceAs (Decidable (Small d))
  | d, ops :: rounds =>
      have := decidableSmallScan t (dictRun t d ops).1 rounds
      inferInstanceAs (Decidable (_ ∧ _))

instance [DecidableEq α] [DecidableEq β] (d : Dict α β) (v : BitVec 64) : Decidable (ScanOk d v) :=
  inferInstanceAs (Decidable (dictIsRehashing d = true →
    ∀ x < (scanTables d).2.size, x % (scanTables d).1.size = v.toNat % (scanTables d).1.size →
      x < v.toNat % (scanTables d).2.size →
      pos (BitVec.ofNat 64 (v.toNat % (scanTables d).2.size)) < pos (BitVec.ofNat 64 x) →
      (scanTables d).2.chain x = []))

/-- Four entries in four buckets. -/
def fourBuckets : List (DictOp Nat Nat) :=
  [.add true 1 10 0, .add true 5 50 0, .add true 9 90 0, .add true 13 130 0]

/-- The table starts to grow after the first call, and the rehash runs on between the
others. -/
def growUnderCursor : List (List (DictOp Nat Nat)) :=
  [[.add true 2 20 0], [.rehash 1], [.delete 5, .add true 7 70 0], [], []]

theorem dictScan_complete_grow :
    (⟨13, 130⟩ : DictEntry Nat Nat) ∈
      (scanRun natType (dictRun natType dictCreate fourBuckets).1 0#64 growUnderCursor).1 := by
  refine dictScan_complete natType_lawful fourBuckets (by decide) growUnderCursor (by decide)
    (by decide +kernel) (by decide +kernel) (by decide) ?_
  intro ops hops op hop
  simp only [growUnderCursor, List.mem_cons, List.not_mem_nil, or_false] at hops
  rcases hops with rfl | rfl | rfl | rfl | rfl <;>
    simp only [List.mem_cons, List.not_mem_nil, or_false] at hop
  · rw [hop]; exact True.intro
  · rw [hop]; exact True.intro
  · rcases hop with rfl | rfl
    · show natType.keyCompare 5 13 = false
      rfl
    · exact True.intro

/-- One entry, in bucket 7 of a table of 16. -/
def sixteen : List (DictOp Nat Nat) := [.expand 16, .add true 7 70 0]

/-- Thirteen calls over the 16 buckets bring the cursor to 11; then the table starts
to shrink to 4 buckets. -/
def shrinkUnderCursor : List (List (DictOp Nat Nat)) :=
  List.replicate 12 [] ++ [[.resize true]]

/-- At cursor 11 the loop tries buckets 11 and 15 of the larger table and stops: the
expansions 3 and 7 are numerically smaller.  Bucket 3 has been seen, bucket 7 has not,
and the call returns 0. -/
theorem dictScan_skips_bucket :
    SmallRun natType dictCreate sixteen ∧
    SmallScan natType (dictRun natType dictCreate sixteen).1 shrinkUnderCursor ∧
    (scanRun natType (dictRun natType dictCreate sixteen).1 0#64 shrinkUnderCursor).2.1 = 0#64 ∧
    (⟨7, 70⟩ : DictEntry Nat Nat) ∈ (dictRun natType dictCreate sixteen).1.entries ∧
    (∀ ops ∈ shrinkUnderCursor, ∀ op ∈ ops, op.Spares natType 7) ∧
    (scanRun natType (dictRun natType dictCreate sixteen).1 0#64 shrinkUnderCursor).1 = [] := by
  refine ⟨by decide, by decide, by decide +kernel, by decide, ?_, by decide +kernel⟩
  intro ops hops op hop
  simp only [shrinkUnderCursor, List.mem_append, List.mem_replicate, List.mem_singleton] at hops
  rcases hops with ⟨_, rfl⟩ | rfl
  · exact absurd hop List.not_mem_nil
  · rw [List.mem_singleton.mp hop]
    exact True.intro

end RedisCore
