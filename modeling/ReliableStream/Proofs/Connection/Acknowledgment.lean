import Mathlib.Algebra.Ring.Nat
import ReliableStream.Proofs.Connection.Teardown

/-!
# Cumulative acknowledgments

An acknowledgment covers all packets before it. So in whatever order acknowledgments come, however
often each of them does, and whatever else comes between them that is outdated or was never sent,
all that counts is the largest of those that are about something that was sent.

* `acknowledge_acknowledge`: of two acknowledgments the larger one counts.
* `acknowledgeAll_eq`: of all of them the largest does, so only their set matters
  (`acknowledgeAll_congr`).
* `acknowledgeAll_retires`: what they say that they retired is what is gone from the front.
* `Numbered.unacked`: nothing that is covered is left in flight, for the packets in flight lie
  behind one another.
-/

namespace ReliableStream

namespace AckEffect

/-- How many packets are done. -/
def retired : AckEffect → Nat
  | advanced retired _ => retired
  | _ => 0

/-- How many payload bytes are done. -/
def freed : AckEffect → Nat
  | advanced _ freed => freed
  | _ => 0

end AckEffect

namespace Inflight

variable {f : Inflight} {m n : Nat}

/-- The packets in flight after the acknowledgments, one after the other. -/
def acknowledgeAll (f : Inflight) (acknos : List Nat) : Inflight :=
  acknos.foldl (fun f n => (f.acknowledge n).2) f

/-- What each of the acknowledgments was, one after the other. -/
def effects (f : Inflight) : List Nat → List AckEffect
  | [] => []
  | n :: acknos => (f.acknowledge n).1 :: (f.acknowledge n).2.effects acknos

@[simp] theorem acknowledgeAll_nil (f : Inflight) : f.acknowledgeAll [] = f := rfl

@[simp] theorem acknowledgeAll_cons (f : Inflight) (n : Nat) (acknos : List Nat) :
    f.acknowledgeAll (n :: acknos) = (f.acknowledge n).2.acknowledgeAll acknos := rfl

/-! ## The largest counts -/

@[simp] theorem sent_acknowledge (f : Inflight) (n : Nat) :
    (f.acknowledge n).2.sent = f.sent := by
  rcases f.acknowledge_cases n with heq | ⟨-, -, bytes, heq⟩ <;> rw [heq]

theorem acknowledge_of_beyond (h : f.sent < n) : f.acknowledge n = (.beyond, f) := if_pos h

theorem acknowledge_of_stale (hsent : n ≤ f.sent) (h : n ≤ f.acked) :
    f.acknowledge n = (.stale, f) := by
  unfold acknowledge
  rw [if_neg (by omega), if_pos h]

theorem acknowledge_of_new (hnew : f.acked < n) (hsent : n ≤ f.sent) :
    (f.acknowledge n).2 = { f with
      entries := f.entries.dropWhile (·.stop ≤ n)
      bytes := f.bytes - SentPacket.payloadTotal (f.entries.toList.takeWhile (·.stop ≤ n))
      acked := n } := by
  unfold acknowledge
  rw [if_neg (by omega), if_neg (by omega), Queue.takeWhile_eq]

/-- Of two acknowledgments the larger one counts. -/
theorem acknowledge_acknowledge (hm : m ≤ f.sent) (hn : n ≤ f.sent) :
    ((f.acknowledge m).2.acknowledge n).2 = (f.acknowledge (max m n)).2 := by
  by_cases hstale : m ≤ f.acked
  · rw [acknowledge_of_stale hm hstale]
    by_cases hle : n ≤ m
    · rw [Nat.max_eq_left hle, acknowledge_of_stale hm hstale,
        acknowledge_of_stale hn (Nat.le_trans hle hstale)]
    · rw [Nat.max_eq_right (by omega)]
  have hnew : f.acked < m := Nat.lt_of_not_le hstale
  by_cases hle : n ≤ m
  · rw [Nat.max_eq_left hle, acknowledge_of_stale (by rwa [sent_acknowledge])]
    rwa [f.acked_acknowledge hnew hm]
  have hlt : m < n := Nat.lt_of_not_le hle
  have himp : ∀ e : SentPacket, decide (e.stop ≤ m) = true → decide (e.stop ≤ n) = true := by
    simp only [decide_eq_true_eq]
    omega
  -- the packets that the larger one retires are those of the smaller one and some more
  have htake : f.entries.toList.takeWhile (·.stop ≤ n) =
      f.entries.toList.takeWhile (·.stop ≤ m) ++
        (f.entries.toList.dropWhile (·.stop ≤ m)).takeWhile (·.stop ≤ n) := by
    have hall : ∀ e ∈ f.entries.toList.takeWhile (·.stop ≤ m), decide (e.stop ≤ n) = true := by
      intro e he
      exact himp e (List.mem_takeWhile_imp (p := fun e : SentPacket => e.stop ≤ m) he)
    rw [← List.takeWhile_append_of_pos hall, List.takeWhile_append_dropWhile]
  rw [Nat.max_eq_right (Nat.le_of_lt hlt), acknowledge_of_new hnew hm,
    acknowledge_of_new (by exact hlt) (by exact hn),
    acknowledge_of_new (Nat.lt_trans hnew hlt) hn]
  simp only [Queue.dropWhile_dropWhile _ himp, Queue.toList_dropWhile, htake,
    SentPacket.payloadTotal_append, Nat.sub_sub]

/-- Of all acknowledgments of what was sent the largest counts. -/
theorem acknowledgeAll_eq (f : Inflight) (acknos : List Nat) :
    f.acknowledgeAll acknos =
      (acknos.filter (· ≤ f.sent)).max?.elim f fun n => (f.acknowledge n).2 := by
  induction acknos generalizing f with
  | nil => rfl
  | cons n acknos ih =>
    rw [acknowledgeAll_cons, ih, sent_acknowledge]
    by_cases hn : n ≤ f.sent
    · rw [List.filter_cons_of_pos (by simpa using hn), List.max?_cons]
      cases hmax : (acknos.filter (· ≤ f.sent)).max? with
      | none => rfl
      | some m =>
        have hm : m ≤ f.sent := by simpa using (List.mem_filter.mp (List.max?_mem hmax)).2
        exact acknowledge_acknowledge hn hm
    · rw [List.filter_cons_of_neg (by simpa using hn), acknowledge_of_beyond (by omega)]

/-- The largest of some numbers depends on nothing but their set. -/
theorem max?_congr {l l' : List Nat} (h : ∀ n, n ∈ l ↔ n ∈ l') : l.max? = l'.max? := by
  refine Option.ext fun n => ?_
  rw [List.max?_eq_some_iff, List.max?_eq_some_iff]
  simp only [h]

/-- It does not matter in which order and how often acknowledgments come. -/
theorem acknowledgeAll_congr {acknos others : List Nat} (h : ∀ n, n ∈ others ↔ n ∈ acknos) :
    f.acknowledgeAll others = f.acknowledgeAll acknos := by
  have hmax : (others.filter (· ≤ f.sent)).max? = (acknos.filter (· ≤ f.sent)).max? :=
    max?_congr fun n => by simp only [List.mem_filter, h]
  rw [acknowledgeAll_eq, acknowledgeAll_eq, hmax]

/-! ## What is gone -/

theorem acknowledge_retires (f : Inflight) (n : Nat) : ∃ gone,
    f.entries.toList = gone ++ (f.acknowledge n).2.entries.toList ∧
      (∀ e ∈ gone, e.stop ≤ (f.acknowledge n).2.acked) ∧
      gone.length = (f.acknowledge n).1.retired ∧
      SentPacket.payloadTotal gone = (f.acknowledge n).1.freed := by
  unfold acknowledge
  split
  · exact ⟨[], rfl, by simp, rfl, rfl⟩
  · split
    · exact ⟨[], rfl, by simp, rfl, rfl⟩
    · refine ⟨f.entries.toList.takeWhile (·.stop ≤ n), ?_, fun e he => ?_, ?_, ?_⟩
      · rw [Queue.toList_dropWhile, List.takeWhile_append_dropWhile]
      · simpa using List.mem_takeWhile_imp he
      · rw [Queue.takeWhile_eq]
        rfl
      · rw [Queue.takeWhile_eq]
        rfl

theorem acked_le_acknowledgeAll (f : Inflight) (acknos : List Nat) :
    f.acked ≤ (f.acknowledgeAll acknos).acked := by
  induction acknos generalizing f with
  | nil => exact Nat.le_refl _
  | cons n acknos ih => exact Nat.le_trans (f.acked_le_acknowledge n) (ih _)

/-- What acknowledgments say that they retired is what is gone from the front, and they cover it. -/
theorem acknowledgeAll_retires (f : Inflight) (acknos : List Nat) : ∃ gone,
    f.entries.toList = gone ++ (f.acknowledgeAll acknos).entries.toList ∧
      (∀ e ∈ gone, e.stop ≤ (f.acknowledgeAll acknos).acked) ∧
      gone.length = ((f.effects acknos).map (·.retired)).sum ∧
      SentPacket.payloadTotal gone = ((f.effects acknos).map (·.freed)).sum := by
  induction acknos generalizing f with
  | nil => exact ⟨[], rfl, by simp, rfl, rfl⟩
  | cons n acknos ih =>
    obtain ⟨gone, hsplit, hstop, hlength, htotal⟩ := f.acknowledge_retires n
    obtain ⟨gone', hsplit', hstop', hlength', htotal'⟩ := ih (f.acknowledge n).2
    have hacked := (f.acknowledge n).2.acked_le_acknowledgeAll acknos
    refine ⟨gone ++ gone', ?_, fun e he => ?_, ?_, ?_⟩
    · rw [hsplit, hsplit', List.append_assoc]
      rfl
    · rcases List.mem_append.mp he with he | he
      · exact Nat.le_trans (hstop e he) hacked
      · exact hstop' e he
    · rw [List.length_append, hlength, hlength']
      rfl
    · rw [SentPacket.payloadTotal_append, htotal, htotal']
      rfl

end Inflight

theorem Conveys.acknowledgeAll {t : Source} {o : Outbound} {f : Inflight} (h : Conveys t o f)
    (acknos : List Nat) : Conveys t o (f.acknowledgeAll acknos) := by
  induction acknos generalizing f with
  | nil => exact h
  | cons n acknos ih => exact ih (h.acknowledge n)

theorem Metered.acknowledgeAll {f : Inflight} {sendWindow : Nat} (h : Metered f sendWindow)
    (acknos : List Nat) : Metered (f.acknowledgeAll acknos) sendWindow := by
  induction acknos generalizing f with
  | nil => exact h
  | cons n acknos ih => exact ih (h.acknowledge n)

namespace Connection

variable {σ : Type} [Endpoint σ] {g : Grant} {c d : Connection σ}

/-- What is in flight is numbered and counted, also in the middle of an operation. -/
theorem Lived.numbered_metered (h : Lived c) (hsteps : Steps g c d) :
    (∃ t, d.Numbered t) ∧ Metered d.inflight d.config.sendWindow := by
  let I : Connection σ → Prop := fun d =>
    (∃ t, d.Numbered t) ∧ Metered d.inflight d.config.sendWindow
  have hstep {g : Grant} {d e : Connection σ} (h : Step g d e) : I d → I e :=
    fun ⟨⟨t, ht⟩, hm⟩ => ⟨h.numbered ht, h.metered ht hm⟩
  have hc : I c := h.rule
    (fun id _ valid endpoint => ⟨⟨{}, numbered_created id valid endpoint⟩, rfl, Nat.zero_le _⟩)
    hstep (fun endpoint ⟨⟨t, ht⟩, hm⟩ => ⟨⟨t, ht.congr rfl rfl rfl rfl⟩, hm⟩)
  exact hsteps.keeps hstep hc

omit [Endpoint σ] in
/-- What is left in flight after acknowledgments is not covered by any. -/
theorem Numbered.unacked {t : Source} (h : c.Numbered t) (acknos : List Nat) :
    ∀ e ∈ (c.inflight.acknowledgeAll acknos).entries.toList,
      (c.inflight.acknowledgeAll acknos).acked < e.stop := by
  cases live : c.destroyed with
  | false => exact ((h.conveys live).acknowledgeAll acknos).unacked
  | true =>
    obtain ⟨gone, hsplit, -⟩ := c.inflight.acknowledgeAll_retires acknos
    rw [h.cleared live] at hsplit
    rw [(List.append_eq_nil_iff.mp hsplit.symm).2]
    exact fun e he => by cases he

/-- Whatever acknowledgments reach the packets in flight of a connection, stale ones, repeated ones
and some of what was never sent among them: what they come to depends on nothing but their set, and
is what the largest comes to that is about something that was sent. What stays in flight is exactly
what is not covered, and what is gone, in packets and in bytes, is what the acknowledgments said. -/
theorem acknowledgments_commute (h : Lived c) (hsteps : Steps g c d) (acknos : List Nat) :
    let f := d.inflight
    let after := f.acknowledgeAll acknos
    (∀ others, (∀ n, n ∈ others ↔ n ∈ acknos) → f.acknowledgeAll others = after) ∧
      after = (acknos.filter (· ≤ f.sent)).max?.elim f (fun n => (f.acknowledge n).2) ∧
      after.entries.toList = f.entries.toList.filter (after.acked < ·.stop) ∧
      f.entries.toList.length =
        after.entries.toList.length + ((f.effects acknos).map (·.retired)).sum ∧
      f.payloadTotal = after.payloadTotal + ((f.effects acknos).map (·.freed)).sum ∧
      f.bytes = after.bytes + ((f.effects acknos).map (·.freed)).sum := by
  obtain ⟨⟨t, hnumbered⟩, hmetered⟩ := h.numbered_metered hsteps
  intro f after
  have hunacked : ∀ e ∈ after.entries.toList, after.acked < e.stop := hnumbered.unacked acknos
  obtain ⟨gone, hsplit, hstop, hlength, htotal⟩ := f.acknowledgeAll_retires acknos
  have hbytes : f.payloadTotal = after.payloadTotal + ((f.effects acknos).map (·.freed)).sum := by
    rw [← htotal, Nat.add_comm]
    unfold Inflight.payloadTotal
    rw [hsplit, SentPacket.payloadTotal_append]
  refine ⟨fun others hsame => Inflight.acknowledgeAll_congr hsame, f.acknowledgeAll_eq acknos, ?_,
    ?_, hbytes, ?_⟩
  · rw [hsplit, List.filter_append, List.filter_eq_nil_iff.mpr fun e he => by
      simpa using hstop e he, List.nil_append]
    exact (List.filter_eq_self.mpr fun e he => by simpa using hunacked e he).symm
  · rw [hsplit, List.length_append, hlength, Nat.add_comm]
  · rw [hmetered.bytes_eq, (hmetered.acknowledgeAll acknos).bytes_eq]
    exact hbytes

/-! ### Three letters in flight

The second is acknowledged, then all that was sent and more, then the first. -/

def threeLetters : Connection InMemory :=
  ((((created 1 { maxPayload := 1 } (Config.check_eq_ok_iff.mp (by decide))
    { input := [97, 98, 99] }).move (.deed (.read 0 true))).move (.deed (.read 0 true))).move
      (.deed (.read 0 true))).move (.deed (.senderTurn 0))

theorem lived_threeLetters : Lived threeLetters :=
  .move (.move (.move (.move (.created ..) _) _) _) _

/-- The third letter stays in flight, as after the acknowledgment of the second alone. -/
theorem third_letter_stays :
    Lived threeLetters ∧
      (threeLetters.inflight.acknowledgeAll [3, 9, 2, 3]).entries.toList.map (·.stop) = [4] ∧
      threeLetters.inflight.acknowledgeAll [3, 9, 2, 3] =
        threeLetters.inflight.acknowledgeAll [2, 3, 9] ∧
      threeLetters.inflight.bytes =
        (threeLetters.inflight.acknowledgeAll [3, 9, 2, 3]).bytes + 2 := by
  obtain ⟨horder, -, -, -, -, hbytes⟩ := acknowledgments_commute
    (g := { hears := fun _ => False }) lived_threeLetters .refl [3, 9, 2, 3]
  refine ⟨lived_threeLetters, by decide +kernel, (horder [2, 3, 9] (by simp; omega)).symm, ?_⟩
  rw [hbytes, show ((threeLetters.inflight.effects [3, 9, 2, 3]).map (·.freed)).sum = 2 by
    decide +kernel]

end Connection

end ReliableStream
