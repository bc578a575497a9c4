/-
# `RedisCore.Session.Replies` — a client can tell the replies apart

What a client receives is the replies to its commands, one after the other, cut anywhere.  Every
reply of the server is a line without a line break in it, or a counted string, and no such reply
goes on where another one ends.  So whatever the values are that the keys hold and whatever names
are quoted in errors, the client cuts the stream where the server has put the replies together.
-/
import RedisCore.Session.Runs
import RedisCore.Lib.PrefixCode

namespace RedisCore

namespace Session

open CInt Decimal PrefixCode

/-- The replies of the server: a status, an error or an integer in one line, no string, or a counted
string. -/
inductive OneReply : Bytes → Prop
  | line {c : UInt8} {text : Bytes} (kind : c = 43 ∨ c = 45 ∨ c = 58) (text13 : 13 ∉ text) :
      OneReply (c :: text ++ cstr "\r\n")
  | null : OneReply (cstr "$-1\r\n")
  | bulk (s : Bytes) : OneReply (respBulk s)

/-! ## Prefix free -/

theorem digit_injective {n m : Nat} (hn : n < 10) (hm : m < 10) (h : digit n = digit m) : n = m := by
  rw [← val_digit hn, h, val_digit hm]

theorem decNat_injective {n m : Nat} (h : decNat n = decNat m) : n = m := by
  induction n using Nat.strongRecOn generalizing m with
  | ind n ih =>
      have hlen : ∀ k, 1 < (decNat (k / 10) ++ [digit (k % 10)]).length := by
        intro k
        rw [List.length_append]
        have := List.length_pos_of_ne_nil (decNat_ne_nil (k / 10))
        exact Nat.lt_add_of_pos_left this
      rw [decNat.eq_def n, decNat.eq_def m] at h
      split at h <;> split at h
      · next hn hm => exact digit_injective hn hm (List.cons.inj h).1
      · have hshort := hlen m
        rw [← h] at hshort
        exact absurd hshort (Nat.lt_irrefl 1)
      · have hshort := hlen n
        rw [h] at hshort
        exact absurd hshort (Nat.lt_irrefl 1)
      · next hn hm =>
          obtain ⟨hdiv, hmod⟩ := List.append_inj' h rfl
          have hdiv := ih (n / 10) (by omega) hdiv
          have hmod := digit_injective (Nat.mod_lt n (by decide)) (Nat.mod_lt m (by decide))
            (List.cons.inj hmod).1
          omega

theorem decInt_natCast (n : Nat) : decInt (n : Int) = decNat n := by
  rw [decInt, if_neg (by omega), Int.natAbs_natCast]

/-- A counted string as a line and the rest. -/
theorem respBulk_append (s x : Bytes) :
    respBulk s ++ x = 36 :: (decNat s.length ++ 13 :: (10 :: s ++ cstr "\r\n" ++ x)) := by
  rw [respBulk, decInt_natCast]
  simp [cstr]

/-- A reply begins with a line, and its kind is the first byte. -/
theorem OneReply.first {a x : Bytes} (h : OneReply a) : ∃ c text rest,
    a ++ x = c :: (text ++ 13 :: rest) ∧ 13 ∉ text ∧
      ((c = 43 ∨ c = 45 ∨ c = 58) ∧ a = c :: text ++ cstr "\r\n" ∨
        c = 36 ∧ text = cstr "-1" ∧ a = cstr "$-1\r\n" ∨
        ∃ s, c = 36 ∧ text = decNat s.length ∧ rest = 10 :: s ++ cstr "\r\n" ++ x ∧ a = respBulk s) := by
  cases h with
  | @line c text kind text13 =>
      refine ⟨c, text, 10 :: x, ?_, text13, .inl ⟨kind, rfl⟩⟩
      simp [cstr]
  | null => exact ⟨36, cstr "-1", 10 :: x, rfl, by decide, .inr (.inl ⟨rfl, rfl, rfl⟩)⟩
  | bulk s =>
      exact ⟨36, decNat s.length, _, respBulk_append s x, Query.not_mem_decNat (by decide),
        .inr (.inr ⟨s, rfl, rfl, rfl, rfl⟩)⟩

/-- **The replies** are prefix free. -/
theorem oneReply_prefixFree : PrefixFree {a | OneReply a} := by
  refine ⟨?_, ?_⟩
  · intro h
    obtain ⟨c, text, rest, heq, -⟩ := @OneReply.first [] [] h
    cases heq
  · intro a b x y ha hb heq
    obtain ⟨c, text, rest, ha₁, htext, hkind⟩ := @OneReply.first a x ha
    obtain ⟨c', text', rest', hb₁, htext', hkind'⟩ := @OneReply.first b y hb
    rw [ha₁, hb₁] at heq
    obtain ⟨rfl, hline⟩ := List.cons.inj heq
    obtain rfl := eq_of_delimited htext htext' hline
    have hrest := (List.cons.inj (List.append_cancel_left hline)).2
    have hkinds : ¬((c = 43 ∨ c = 45 ∨ c = 58) ∧ c = 36) := by
      rintro ⟨rfl | rfl | rfl, h⟩ <;> exact absurd h (by decide)
    have hminus : ∀ s : Bytes, decNat s.length ≠ cstr "-1" := by
      intro s h
      have hmem : (45 : UInt8) ∈ decNat s.length := by
        rw [h]
        decide
      exact Query.not_mem_decNat (by decide) hmem
    rcases hkind with ⟨hc, rfl⟩ | ⟨hc, ht, rfl⟩ | ⟨s, hc, ht, hr, rfl⟩ <;>
      rcases hkind' with ⟨hc', rfl⟩ | ⟨hc', ht', rfl⟩ | ⟨s', hc', ht', hr', rfl⟩
    · rfl
    · exact absurd ⟨hc, hc'⟩ hkinds
    · exact absurd ⟨hc, hc'⟩ hkinds
    · exact absurd ⟨hc', hc⟩ hkinds
    · rfl
    · exact absurd (ht'.symm.trans ht) (hminus s')
    · exact absurd ⟨hc', hc⟩ hkinds
    · exact absurd (ht.symm.trans ht') (hminus s)
    · have hlen := decNat_injective (ht.symm.trans ht')
      rw [hr, hr', List.append_assoc, List.append_assoc, List.cons_append, List.cons_append] at hrest
      have hs : s = s' := (List.append_inj (List.cons.inj hrest).2 hlen).1
      rw [hs]

/-! ## What the server replies -/

theorem Refusal.oneReply {reply : List ReplyCall} (h : Refusal reply) : OneReply (replyBytes reply) := by
  obtain ⟨msg, heq, h13, -⟩ := h
  rw [heq]
  exact @OneReply.line 45 msg (.inr (.inl rfl)) h13

/-- The errors of SET are fixed texts. -/
theorem setCommand_refused {env : Env} {st st' : DbState} {key : Bytes} {val : Arg} {opts : List Arg}
    {reply : List ReplyCall} (hreq : setRequest opts = none)
    (hexec : setCommand env st key val opts = some (st', reply)) : Refusal reply := by
  unfold setCommand at hexec
  cases ho : setOptions opts OBJ_SET_NO_FLAGS none .seconds with
  | none =>
      rw [ho] at hexec
      cases hexec
      exact @refusal_of_shared _ (cstr "ERR syntax error") rfl (by decide) (by decide)
  | some r =>
      obtain ⟨flags, expire, unit⟩ := r
      rw [ho] at hexec
      dsimp only at hexec
      rcases setMilliseconds_spec ho with ⟨msg, calls, -, hms, -⟩ | ⟨ttl, ms, hsome, -, -⟩
      · rw [setGenericCommand, hms] at hexec
        cases hexec
        unfold setMilliseconds at hms
        cases expire with
        | none => cases hms
        | some arg =>
            dsimp only at hms
            split at hms
            · cases hms
              exact refusal_of_text (by decide) (by decide)
            · split at hms <;> cases hms
              exact refusal_of_format _
      · rw [hreq] at hsome
        cases hsome

/-- A request has one reply. -/
theorem Answers.oneReply {env : Env} {ks : Keyspace} {st st' : DbState} {reply : List ReplyCall}
    {c : Command} (h : Answers env ks st st' reply c) (hexec : execCmd env st c = some (st', reply)) :
    OneReply (replyBytes reply) := by
  have hok : OneReply (cstr "+OK\r\n") := @OneReply.line 43 (cstr "OK") (.inl rfl) (by decide)
  cases c with
  | set key val opts =>
      cases hreq : setRequest opts with
      | none => exact (setCommand_refused hreq hexec).oneReply
      | some r =>
          unfold Answers at h
          dsimp only at h
          rw [hreq] at h
          dsimp only at h
          split at h
          · rw [h]
            exact hok
          · rw [h.1]
            exact .null
  | get key =>
      have hreply := h.1
      split at hreply
      · rw [hreply]
        exact .bulk _
      · rw [hreply]
        exact .null
  | del keys fits =>
      obtain ⟨ns, -, -, hreply⟩ := h
      rw [hreply, respInt, decInt_natCast]
      exact @OneReply.line 58 _ (.inr (.inr rfl)) (Query.not_mem_decNat (by decide))

theorem Serial.oneReply {env : Env} {log : List Entry} {st : DbState} {ks : Keyspace}
    (h : Serial env log st ks) : ∀ e ∈ log, OneReply (replyBytes e.reply) := by
  induction h with
  | start => exact fun e he => absurd he List.not_mem_nil
  | refused _ _ _ reply ih =>
      intro e he
      rcases List.mem_append.mp he with he | he
      · exact ih e he
      · rw [List.mem_singleton.mp he]
        exact reply.oneReply
  | answered _ _ _ exec reply ih =>
      intro e he
      rcases List.mem_append.mp he with he | he
      · exact ih e he
      · rw [List.mem_singleton.mp he]
        exact Answers.oneReply reply exec

/-- The replies to the commands of a client. -/
def repliesTo (id : Nat) (log : List Entry) : List Bytes :=
  (log.filter (fun e => e.id = id)).map (fun e => replyBytes e.reply)

end Session

end RedisCore
