import Viiwork.Proxy.Dispatch

/-!
# Viiwork.Proxy.Bounded

A dispatch is bounded and leaks nothing, whatever it meets (`dispatch_safe`).

One pass of the loop makes one attempt (`Tries`), and what it does before and after is quiet, but
for the lease of the next pass. `Going` is what holds of a dispatch that goes on: it has written
nothing, it holds the one lease of its variables, and they say how often it has tried, where, and
with what result. `Safe` is what holds of one that is over.
-/

namespace Viiwork.Proxy

open Viiwork.Route List

variable {β F : Type}

/-! ### Logs -/

/-- Neither an attempt nor a write of one, and nothing that becomes of a lease. -/
def Event.isQuiet : Event β → Bool
  | .waited _ => true
  | .header _ _ => true
  | .answer _ _ _ => true
  | .panicked => true
  | _ => false

namespace Log

variable (a b : Log β)

@[simp] theorem attempts_append : attempts (a ++ b) = a.attempts ++ b.attempts :=
  filterMap_append

@[simp] theorem waits_append : waits (a ++ b) = a.waits ++ b.waits := filterMap_append

@[simp] theorem leases_append : leases (a ++ b) = a.leases ++ b.leases := filterMap_append

@[simp] theorem results_append : results (a ++ b) = a.results ++ b.results :=
  filterMap_append

@[simp] theorem answers_append : answers (a ++ b) = a.answers ++ b.answers :=
  filterMap_append

@[simp] theorem ledger_append : ledger (a ++ b) = a.ledger ++ b.ledger := filterMap_append

variable {a b}

/-- A log that takes no lease has no final acquisition. -/
theorem isFinal_eq_false (h : a.leases = []) {e : Event β} (he : e ∈ a) : e.isFinal = false := by
  have hnone := filterMap_eq_nil_iff.1 h e he
  cases e with
  | acquired final l => cases hnone
  | _ => rfl

theorem fromFinal_of_leases (h : a.leases = []) : a.fromFinal = [] := by
  unfold fromFinal
  rw [dropWhile_eq_nil_iff]
  intro e he
  rw [isFinal_eq_false h he]
  rfl

theorem fromFinal_append_of_ne (h : a.fromFinal ≠ []) :
    fromFinal (a ++ b) = a.fromFinal ++ b := by
  unfold fromFinal at h ⊢
  rw [List.dropWhile_append, if_neg]
  rwa [List.isEmpty_iff]

theorem fromFinal_append_of_eq (h : a.fromFinal = []) : fromFinal (a ++ b) = b.fromFinal := by
  unfold fromFinal at h ⊢
  rw [List.dropWhile_append, if_pos]
  rwa [List.isEmpty_iff]

/-- Nothing but waits, headers, answers and panics: no attempt, no lease and no write. -/
def Quiet (log : Log β) : Prop := ∀ e ∈ log, e.isQuiet = true

namespace Quiet

variable {log : Log β} (h : log.Quiet)

include h

theorem filterMap {α : Type} {f : Event β → Option α} (hf : ∀ e, e.isQuiet = true → f e = none) :
    log.filterMap f = [] :=
  filterMap_eq_nil_iff.2 fun e he => hf e (h e he)

theorem attempts : log.attempts = [] := by
  refine h.filterMap fun e he => ?_
  cases e <;> first | rfl | cases he

theorem leases : log.leases = [] := by
  refine h.filterMap fun e he => ?_
  cases e <;> first | rfl | cases he

theorem results : log.results = [] := by
  refine h.filterMap fun e he => ?_
  cases e <;> first | rfl | cases he

theorem ledger : log.ledger = [] := by
  refine h.filterMap fun e he => ?_
  cases e <;> first | rfl | cases he

theorem unwritten {e : Event β} (he : e ∈ log) : e.isWrite = false := by
  have hquiet := h e he
  cases e <;> first | rfl | cases hquiet

/-- What answers an acquisition that failed. -/
theorem waited (hwaits : log.waits = []) (w : Int) :
    Quiet (.waited w :: log) ∧ (waits (.waited w :: log)).sum = w := by
  have hsum : waits (.waited w :: log) = w :: log.waits := rfl
  rw [hsum, hwaits]
  exact ⟨forall_mem_cons.2 ⟨rfl, h⟩, sum_singleton⟩

end Quiet

end Log

/-- A lease that is taken and then released. -/
def entries (l : Lease β) : List (Bool × Lease β) := [(true, l), (false, l)]

/-! ### One attempt -/

/-- What an attempt on the lease does. -/
structure Tries (l : Lease β) (log : Log β) (ending : Ending) : Prop where
  attempts : log.attempts = [l.target]
  waits : log.waits = []
  leases : log.leases = []
  ledger : log.ledger = [(false, l)]
  results : log.results = ending.toList
  answers : log.answers = []
  /-- The attempt begins before it writes. -/
  written : log.Pairwise fun a b => a.isWrite = true → b.attempt? = none
  /-- Another attempt may follow one that wrote nothing. -/
  unwritten : ∀ res, ending = some res → res.outcome = .retryable → ∀ e ∈ log, e.isWrite = false

theorem execute_writes_of_retryable {d : Call F} {t : Target} {u : Upstream}
    (h : (execute d t u).2.outcome = .retryable) : (execute d t u).1 = [] := by
  unfold execute at h ⊢
  split_ifs at h ⊢
  · exact serveLocal_writes_of_retryable h
  · exact forwardToPeer_writes_of_retryable h

/-- The log of every attempt: it begins, writes, may mark its peer, releases its lease, and either
returns or panics. -/
def tries (l : Lease β) (writes : List Write) (marked : Bool) : Ending → Log β
  | none => .attempt l.target :: (writes.map .wrote ++ [.released l, .panicked])
  | some res =>
    .attempt l.target :: (writes.map .wrote ++
      ((if marked then [.refused l] else []) ++ [.released l, .ended res]))

/-- Of an attempt, a question that is not about writes and marks finds the begin, the release and
the end. -/
theorem filterMap_tries {α : Type} {f : Event β → Option α} (hwrote : ∀ w, f (.wrote w) = none)
    (hmark : ∀ l, f (.refused l) = none) (l : Lease β) (writes : List Write) (marked : Bool)
    (ending : Ending) :
    (tries l writes marked ending).filterMap f =
      [.attempt l.target, .released l, ending.elim .panicked .ended].filterMap f := by
  have hwrites : (writes.map Event.wrote).filterMap f = [] := by
    rw [filterMap_map, filterMap_eq_nil_iff]
    exact fun w _ => hwrote w
  cases ending with
  | none =>
    rw [tries, filterMap_cons, filterMap_append, hwrites, nil_append,
      filterMap_cons]
    rfl
  | some res =>
    have hmarks : (if marked then [Event.refused l] else []).filterMap f = [] := by
      split
      · rw [filterMap_cons, hmark]
        rfl
      · rfl
    rw [tries, filterMap_cons, filterMap_append, filterMap_append, hwrites, hmarks,
      nil_append, nil_append, filterMap_cons]
    rfl

theorem tries_eq_cons (l : Lease β) (writes : List Write) (marked : Bool) (ending : Ending) :
    ∃ later, tries l writes marked ending = .attempt l.target :: later := by
  cases ending <;> exact ⟨_, rfl⟩

variable {l : Lease β} {t : Turn β F} {first : Acquire β F}

theorem Tries.tries {writes : List Write} {marked : Bool} {ending : Ending}
    (hwrites : ∀ res, ending = some res → res.outcome = .retryable → writes = []) :
    Tries l (tries l writes marked ending) ending := by
  have hshape {α : Type} (f : Event β → Option α) (hwrote : ∀ w, f (.wrote w) = none)
      (hmark : ∀ l, f (.refused l) = none) :=
    filterMap_tries hwrote hmark l writes marked ending
  have hattempts : (Proxy.tries l writes marked ending).attempts = [l.target] := by
    refine (hshape Event.attempt? (fun _ => rfl) (fun _ => rfl)).trans ?_
    cases ending <;> rfl
  refine ⟨hattempts, ?_, ?_, ?_, ?_, ?_, ?_, ?_⟩
  · refine (hshape Event.waited? (fun _ => rfl) (fun _ => rfl)).trans ?_
    cases ending <;> rfl
  · refine (hshape Event.lease? (fun _ => rfl) (fun _ => rfl)).trans ?_
    cases ending <;> rfl
  · refine (hshape Event.entry? (fun _ => rfl) (fun _ => rfl)).trans ?_
    cases ending <;> rfl
  · refine (hshape Event.ended? (fun _ => rfl) (fun _ => rfl)).trans ?_
    cases ending <;> rfl
  · refine (hshape Event.answer? (fun _ => rfl) (fun _ => rfl)).trans ?_
    cases ending <;> rfl
  · -- The only attempt is the first event.
    obtain ⟨later, heq⟩ := tries_eq_cons l writes marked ending
    rw [heq] at hattempts ⊢
    have hlater : ∀ e ∈ later, e.attempt? = none :=
      filterMap_eq_nil_iff.1 (List.cons.inj hattempts).2
    rw [pairwise_cons]
    refine ⟨fun e he _ => hlater e he, ?_⟩
    exact pairwise_of_forall_mem_list fun a _ b hb _ => hlater b hb
  · rintro res rfl hretry e he
    rw [hwrites res rfl hretry, Proxy.tries] at he
    cases marked <;>
      simp only [map_nil, nil_append, mem_cons, not_mem_nil, or_false,
        if_true, if_false, Bool.false_eq_true, mem_append] at he
    · rcases he with rfl | rfl | rfl <;> rfl
    · rcases he with rfl | rfl | rfl | rfl <;> rfl

/-- **Attempt.** Whatever it meets, an attempt does this. -/
theorem attempt_tries (d : Call F) (l : Lease β) (x : Exchange) :
    Tries l (attempt d l x).1 (attempt d l x).2 := by
  unfold attempt
  dsimp only
  split
  · rename_i n hpanic
    have h : Tries l (tries l ((execute d l.target x.upstream).1.take n) false none) none :=
      .tries nofun
    exact h
  · have h : Tries l (tries l (execute d l.target x.upstream).1
        (decide (l.target.isLocal = false ∧ (execute d l.target x.upstream).2.outcome = .retryable))
        (some (execute d l.target x.upstream).2)) (some (execute d l.target x.upstream).2) := by
      refine .tries ?_
      rintro res ⟨⟩ hretry
      exact execute_writes_of_retryable hretry
    simpa only [tries, decide_eq_true_eq, cons_append, append_assoc] using h

/-! ### Before and after an attempt -/

theorem headers_quiet (d : Call F) (queued : Int) :
    (headers d queued : Log β).Quiet ∧ (headers d queued : Log β).waits = [] ∧
      (headers d queued : Log β).answers = [] := by
  unfold headers
  split_ifs <;> exact ⟨by simp [Log.Quiet, Event.isQuiet], rfl, rfl⟩

theorem writeAcquireError_quiet (h : Handler β) (d : Call F) (e : AcquireErr) :
    (writeAcquireError h d e).Quiet ∧ (writeAcquireError h d e).waits = [] := by
  unfold writeAcquireError
  split
  case h_4 =>
    split_ifs <;> exact ⟨by simp [Log.Quiet, Event.isQuiet], rfl⟩
  all_goals exact ⟨by simp [Log.Quiet, Event.isQuiet], rfl⟩

theorem writeFirstError_quiet (h : Handler β) (d : Call F) (e : AcquireErr) :
    (writeFirstError h d e).Quiet ∧ (writeFirstError h d e).waits = [] := by
  unfold writeFirstError
  split_ifs
  · exact ⟨by simp [Log.Quiet, Event.isQuiet], rfl⟩
  · exact writeAcquireError_quiet h d e

theorem writeExhausted_quiet (d : Call F) (allRefusal : Bool) :
    (writeExhausted d allRefusal : Log β).Quiet ∧
      (writeExhausted d allRefusal : Log β).waits = [] ∧
      (writeExhausted d allRefusal : Log β).answers = [if allRefusal then 503 else 502] := by
  unfold writeExhausted
  split_ifs <;> exact ⟨by simp [Log.Quiet, Event.isQuiet], rfl, rfl⟩

/-! ### Safety -/

/-- How long `Acquire` may queue with a budget: without one for the whole timeout, and with a
negative one not at all. -/
def allowance (queueTimeout budget : Int) : Int :=
  if budget < 0 then 0 else if budget = 0 then queueTimeout else budget

/-- `Acquire` honours the budget it is passed. -/
def Honours (h : Handler β) (acquire : Acquire β F) : Prop :=
  ∀ req, (acquire req).1 ≤ allowance h.queueTimeout req.queueBudget

/-- What is left of the timeout is what the final acquisition may use of it. -/
theorem allowance_budget (h : Handler β) {queued : Int} (hle : queued ≤ h.queueTimeout) :
    queued + allowance h.queueTimeout (budget h queued) ≤ h.queueTimeout := by
  unfold budget allowance
  split_ifs <;> omega

/-- What holds of a dispatch that is over; of its waits where every `Acquire` is `honoured`. -/
structure Safe (h : Handler β) (d : Call F) (honoured : Prop) (log : Log β) : Prop where
  attempts : log.attempts.length ≤ h.forwardRetry + 2
  forwarded : d.forwarded = true → log.attempts.length ≤ 1
  /-- No attempt follows one that wrote to the client. -/
  written : log.Pairwise fun a b => a.isWrite = true → b.attempt? = none
  waits : honoured → log.waits.sum ≤ h.queueTimeout
  /-- Every lease is released once, before the next is taken. -/
  released : log.ledger = log.leases.flatMap entries
  /-- A retry is on a route that was not tried. -/
  retried : log.Pairwise fun a b => ∀ t l, a = .attempt t → b = .picked l → l.target.key ≠ t.key
  /-- The attempt after the final acquisition is not served. -/
  exhausted : d.forwarded = false → ∀ res ∈ log.fromFinal.results, res.outcome = .retryable →
    log.answers = [if log.results.all (·.refusal) then 503 else 502]

/-- What holds of a dispatch that goes on with the variables `v` after `n` passes. -/
structure Going (h : Handler β) (d : Call F) (honoured : Prop) (n : Nat) (log : Log β)
    (v : Vars β) : Prop where
  attempts : log.attempts.length = n
  passes : n ≤ v.retries + if v.final then 1 else 0
  retries : v.retries ≤ h.forwardRetry
  forwarded : d.forwarded = true → n = 0
  unwritten : ∀ e ∈ log, e.isWrite = false
  waits : log.waits.sum = v.queued
  queued : honoured → v.queued ≤ h.queueTimeout
  /-- Every lease but the last is released. -/
  held : ∃ ls, log.leases = ls ++ [v.lease] ∧ log.ledger = ls.flatMap entries ++ [(true, v.lease)]
  retried : log.Pairwise fun a b => ∀ t l, a = .attempt t → b = .picked l → l.target.key ≠ t.key
  tried : ∀ t ∈ log.attempts, t.key ∈ v.tried
  refusals : v.allRefusal = log.results.all (·.refusal)
  unanswered : log.answers = []
  final : log.fromFinal = if v.final then [.acquired true v.lease] else []

variable {h : Handler β} {d : Call F} {honoured : Prop} {n : Nat} {log : Log β} {v : Vars β}
variable {heads body rest : Log β} {ending : Ending}

/-- What takes no lease picks no route, tried or not. -/
theorem retried_append {a b : Log β} (hb : b.leases = [])
    (ha : a.Pairwise fun a b => ∀ t l, a = .attempt t → b = .picked l → l.target.key ≠ t.key) :
    (a ++ b).Pairwise fun a b => ∀ t l, a = .attempt t → b = .picked l → l.target.key ≠ t.key := by
  have hpick : ∀ e ∈ b, ∀ l, e ≠ .picked l := by
    rintro e he l rfl
    cases filterMap_eq_nil_iff.1 hb _ he
  rw [pairwise_append]
  refine ⟨ha, ?_, ?_⟩
  · exact pairwise_of_forall_mem_list fun _ _ e he _ l _ heq => absurd heq (hpick e he l)
  · exact fun _ _ e he _ l _ heq => absurd heq (hpick e he l)

/-- Where nothing is written at first. -/
theorem written_append {a b : Log β} (ha : ∀ e ∈ a, e.isWrite = false)
    (hb : b.Pairwise fun a b => a.isWrite = true → b.attempt? = none) :
    (a ++ b).Pairwise fun a b => a.isWrite = true → b.attempt? = none := by
  have hnone {e e' : Event β} (he : e ∈ a) (hwrite : e.isWrite = true) : e'.attempt? = none := by
    rw [ha e he] at hwrite
    cases hwrite
  rw [pairwise_append]
  exact ⟨pairwise_of_forall_mem_list fun e he _ _ => hnone he, hb, fun e he _ _ => hnone he⟩

/-- With the headers before it. -/
theorem Tries.headed (hbody : Tries l body ending)
    (hheads : heads.Quiet ∧ heads.waits = [] ∧ heads.answers = []) :
    Tries l (heads ++ body) ending := by
  obtain ⟨hquiet, hwaits, hanswers⟩ := hheads
  refine ⟨by simp [hquiet.attempts, hbody.attempts], by simp [hwaits, hbody.waits],
    by simp [hquiet.leases, hbody.leases], by simp [hquiet.ledger, hbody.ledger],
    by simp [hquiet.results, hbody.results], by simp [hanswers, hbody.answers],
    written_append (fun _ => hquiet.unwritten) hbody.written, ?_⟩
  intro res hres hretry
  exact forall_mem_append.2 ⟨fun _ => hquiet.unwritten, hbody.unwritten res hres hretry⟩

/-- The last pass: an attempt, and after it nothing but quiet events. -/
theorem Going.over (hgoing : Going h d honoured n log v) (hbody : Tries v.lease body ending)
    (hrest : rest.Quiet)
    (hwaits : honoured → v.queued + rest.waits.sum ≤ h.queueTimeout)
    (hanswer : v.final = true → d.forwarded = false → ∀ res, ending = some res →
      res.outcome = .retryable →
      rest.answers = [if v.allRefusal && res.refusal then 503 else 502]) :
    Safe h d honoured (log ++ (body ++ rest)) := by
  have hattempts : (log ++ (body ++ rest)).attempts = log.attempts ++ [v.lease.target] := by
    simp [hbody.attempts, hrest.attempts]
  have hleases : (body ++ rest).leases = [] := by
    simp [hbody.leases, hrest.leases]
  have hresults : (body ++ rest).results = ending.toList := by
    simp [hbody.results, hrest.results]
  have hwritten : (body ++ rest).Pairwise fun a b => a.isWrite = true → b.attempt? = none := by
    have hnone : ∀ e ∈ rest, e.attempt? = none := filterMap_eq_nil_iff.1 hrest.attempts
    rw [pairwise_append]
    refine ⟨hbody.written, ?_, fun _ _ e he _ => hnone e he⟩
    exact pairwise_of_forall_mem_list fun _ _ e he _ => hnone e he
  refine ⟨?_, ?_, written_append hgoing.unwritten hwritten, ?_, ?_,
    retried_append hleases hgoing.retried, ?_⟩
  · rw [hattempts, length_append, hgoing.attempts]
    have hpasses := hgoing.passes
    have hretries := hgoing.retries
    simp only [length_singleton]
    split_ifs at hpasses <;> omega
  · intro hforwarded
    rw [hattempts, length_append, hgoing.attempts, hgoing.forwarded hforwarded]
    rfl
  · intro hhonoured
    have hsum : (log ++ (body ++ rest)).waits.sum = v.queued + rest.waits.sum := by
      simp [hbody.waits, hgoing.waits]
    rw [hsum]
    exact hwaits hhonoured
  · obtain ⟨ls, hls, hledger⟩ := hgoing.held
    rw [Log.leases_append, hleases, hls]
    simp [hledger, hbody.ledger, hrest.ledger, entries]
  · intro hforwarded res hres hretry
    have hfinal := hgoing.final
    cases hv : v.final with
    | false =>
      -- Without a final acquisition there is no attempt after one.
      rw [hv] at hfinal
      rw [Log.fromFinal_append_of_eq hfinal, Log.fromFinal_of_leases hleases] at hres
      cases hres
    | true =>
      rw [hv] at hfinal
      have hne : log.fromFinal ≠ [] := by simp [hfinal]
      rw [Log.fromFinal_append_of_ne hne, hfinal, Log.results_append, hresults] at hres
      have hending : ending = some res := by simpa [Log.results, Event.ended?] using hres
      have hall : (log ++ (body ++ rest)).results.all (·.refusal) =
          (v.allRefusal && res.refusal) := by
        rw [Log.results_append, hresults, hending, all_append, ← hgoing.refusals]
        simp
      rw [hall]
      simp [hgoing.unanswered, hbody.answers, hanswer hv hforwarded res hending hretry]

/-- The event that brings the lease of the next pass: the final acquisition, or a retry's pick of
a route that was not tried. -/
inductive Brings (v : Vars β) : Event β → Prop
  | acquired (hfinal : v.final = true) : Brings v (.acquired true v.lease)
  | picked (hfinal : v.final = false) (hnew : v.lease.target.key ∉ v.tried) :
      Brings v (.picked v.lease)

/-- A pass whose attempt was given up, of a request that may try another route. -/
structure GaveUp (d : Call F) (v : Vars β) (heads body : Log β) (res : ExecResult) : Prop where
  heads : heads.Quiet ∧ heads.waits = [] ∧ heads.answers = []
  body : Tries v.lease body (some res)
  retry : res.outcome = .retryable
  forwarded : d.forwarded = false
  final : v.final = false

variable {res : ExecResult} {v' : Vars β}

/-- It ends without a final acquisition. -/
theorem GaveUp.over (hgave : GaveUp d v heads body res) (hgoing : Going h d honoured n log v)
    (hrest : rest.Quiet) (hwaits : honoured → v.queued + rest.waits.sum ≤ h.queueTimeout) :
    Safe h d honoured (log ++ (heads ++ body ++ rest)) := by
  refine hgoing.over (hgave.body.headed hgave.heads) hrest hwaits ?_
  intro htrue
  rw [hgave.final] at htrue
  cases htrue

/-- Another pass: the attempt was given up, and there is a lease for the next. -/
theorem Going.again {e : Event β} (hgoing : Going h d honoured n log v)
    (hgave : GaveUp d v heads body res) (hrest : rest.Quiet) (hanswers : rest.answers = [])
    (hbrings : Brings v' e) (hpasses : n + 1 ≤ v'.retries + if v'.final then 1 else 0)
    (hretries : v'.retries ≤ h.forwardRetry) (hqueued : v'.queued = v.queued + rest.waits.sum)
    (hwaits : honoured → v'.queued ≤ h.queueTimeout)
    (htried : v'.tried = v.lease.target.key :: v.tried)
    (hrefusals : v'.allRefusal = (v.allRefusal && res.refusal)) :
    Going h d honoured (n + 1) (log ++ (heads ++ body ++ rest) ++ [e]) v' := by
  obtain ⟨hheads, hbody, hretry, hforwarded, hfinal⟩ := hgave
  replace hbody := hbody.headed hheads
  generalize heads ++ body = body at hbody ⊢
  have hleases : (body ++ rest).leases = [] := by
    simp [hbody.leases, hrest.leases]
  have hattempts : (log ++ (body ++ rest) ++ [e]).attempts =
      log.attempts ++ [v.lease.target] := by
    have hlast : Log.attempts [e] = [] := by cases hbrings <;> rfl
    simp [hbody.attempts, hrest.attempts, hlast]
  have hallTried : ∀ t ∈ log.attempts ++ [v.lease.target], t.key ∈ v'.tried := by
    intro t ht
    rw [htried]
    rcases mem_append.1 ht with ht | ht
    · exact mem_cons_of_mem _ (hgoing.tried t ht)
    · rw [mem_singleton.1 ht]
      exact mem_cons_self
  have hfrom : (log ++ (body ++ rest)).fromFinal = [] := by
    have hnone := hgoing.final
    rw [hfinal] at hnone
    rw [Log.fromFinal_append_of_eq hnone]
    exact Log.fromFinal_of_leases hleases
  refine ⟨?_, hpasses, hretries, ?_, ?_, ?_, hwaits, ?_, ?_, ?_, ?_, ?_, ?_⟩
  · rw [hattempts, length_append, hgoing.attempts]
    rfl
  · intro htrue
    rw [hforwarded] at htrue
    cases htrue
  · intro x hx
    simp only [mem_append, mem_singleton] at hx
    rcases hx with (hx | hx | hx) | rfl
    · exact hgoing.unwritten x hx
    · exact hbody.unwritten res rfl hretry x hx
    · exact hrest.unwritten hx
    · cases hbrings <;> rfl
  · have hlast : Log.waits [e] = [] := by cases hbrings <;> rfl
    simp [hbody.waits, hgoing.waits, hlast, hqueued]
  · obtain ⟨ls, hls, hledger⟩ := hgoing.held
    have hlast : Log.leases [e] = [v'.lease] ∧ Log.ledger [e] = [(true, v'.lease)] := by
      cases hbrings <;> exact ⟨rfl, rfl⟩
    refine ⟨ls ++ [v.lease], ?_, ?_⟩
    · rw [Log.leases_append, Log.leases_append, hleases, hls, hlast.1, append_nil]
    · simp [hledger, hbody.ledger, hrest.ledger, hlast.2, entries]
  · -- The pick, if there is one, is of a route that was not tried.
    rw [pairwise_append]
    refine ⟨retried_append hleases hgoing.retried, pairwise_singleton _ _, ?_⟩
    rintro x hx y hy t l rfl rfl
    rw [mem_singleton] at hy
    have hmem : t ∈ log.attempts ++ [v.lease.target] := by
      rw [← hattempts]
      exact mem_filterMap.2 ⟨_, mem_append_left _ hx, rfl⟩
    rw [← hy] at hbrings
    cases hbrings with
    | picked _ hnew =>
      intro hkey
      rw [hkey] at hnew
      exact hnew (hallTried t hmem)
  · rw [hattempts]
    exact hallTried
  · have hlast : Log.results [e] = [] := by cases hbrings <;> rfl
    simp [hbody.results, hrest.results, hlast, hrefusals, hgoing.refusals]
  · have hlast : Log.answers [e] = [] := by cases hbrings <;> rfl
    simp [hgoing.unanswered, hbody.answers, hanswers, hlast]
  · rw [Log.fromFinal_append_of_eq hfrom]
    cases hbrings with
    | acquired hfinal' | picked hfinal' _ =>
      rw [hfinal']
      rfl

/-! ### A pass -/

/-- What holds of a dispatch after `n` passes at most. -/
def Holds (h : Handler β) (d : Call F) (honoured : Prop) (n : Nat) (s : Dispatch β) : Prop :=
  match s.vars with
  | none => Safe h d honoured s.log
  | some v => Going h d honoured n s.log v

/-- The final acquisition ends the dispatch, or brings the lease of the last pass. -/
theorem Going.acquireFinal {acquire : Acquire β F} (hgoing : Going h d honoured n log v)
    (hgave : GaveUp d v heads body res) (hpasses : n ≤ v'.retries)
    (hretries : v'.retries ≤ h.forwardRetry) (hqueued : v'.queued = v.queued)
    (htried : v'.tried = v.lease.target.key :: v.tried)
    (hrefusals : v'.allRefusal = (v.allRefusal && res.refusal))
    (hhonours : honoured → Honours h acquire) :
    Holds h d honoured (n + 1)
      ⟨log ++ (heads ++ body ++ (acquireFinal h d v' acquire).1),
        (acquireFinal h d v' acquire).2⟩ := by
  have hwaits : honoured → v.queued +
      (acquire { d.request with queueBudget := budget h v'.queued }).1 ≤ h.queueTimeout := by
    intro hhonoured
    have hleft := allowance_budget h (hgoing.queued hhonoured)
    have hwaited : (acquire { d.request with queueBudget := budget h v'.queued }).1 ≤
        allowance h.queueTimeout (budget h v'.queued) := hhonours hhonoured _
    rw [hqueued] at hwaited ⊢
    exact (Int.add_le_add_left hwaited _).trans hleft
  unfold Proxy.acquireFinal
  split
  · rename_i waited e hacquire
    rw [hacquire] at hwaits
    obtain ⟨herr, hnone⟩ := writeAcquireError_quiet h d e
    obtain ⟨hquiet, hsum⟩ := herr.waited hnone waited
    refine hgave.over hgoing hquiet ?_
    rw [hsum]
    exact hwaits
  · rename_i waited l hacquire
    rw [hacquire] at hwaits
    have hrest : (log ++ (heads ++ body ++ [.waited waited, .acquired true l])) =
        log ++ (heads ++ body ++ [.waited waited]) ++ [.acquired true l] := by
      simp only [append_assoc, cons_append, nil_append]
    have hsum : (Log.waits [(.waited waited : Event β)]).sum = waited := sum_singleton
    show Going h d honoured (n + 1) _ _
    rw [hrest]
    refine hgoing.again hgave ?_ rfl (.acquired rfl) ?_ hretries ?_ ?_ htried hrefusals
    · exact forall_mem_singleton.2 rfl
    · exact Nat.succ_le_succ hpasses
    · rw [hsum, hqueued]
    · rw [hqueued]
      exact hwaits

variable [DecidableEq β] [Float64 F]

/-- A retry on another route, or the final acquisition. -/
theorem Going.goOn (hgoing : Going h d honoured n log v) (hgave : GaveUp d v heads body res)
    (hv : v' = { v with
      allRefusal := v.allRefusal && res.refusal, tried := v.lease.target.key :: v.tried })
    (hhonours : honoured → Honours h t.acquire) :
    Holds h d honoured (n + 1)
      ⟨log ++ (heads ++ body ++ (goOn h d v' t).1), (goOn h d v' t).2⟩ := by
  subst hv
  have hpasses : n ≤ v.retries := by simpa [hgave.final] using hgoing.passes
  unfold Proxy.goOn
  split_ifs with hleft
  · dsimp only at hleft ⊢
    split
    · rename_i next hpick
      have hnew := key_not_mem_of_pick hpick
      have hrest : log ++ (heads ++ body ++ [.picked next]) =
          log ++ (heads ++ body ++ []) ++ [.picked next] := by
        simp only [append_assoc, append_nil]
      show Going h d honoured (n + 1) _ _
      rw [hrest]
      refine hgoing.again hgave nofun rfl (.picked hgave.final hnew) ?_ hleft ?_ hgoing.queued
        rfl rfl
      · exact (Nat.succ_le_succ hpasses).trans (Nat.le_add_right _ _)
      · exact (Int.add_zero _).symm
    · -- The pick panics.
      refine hgave.over hgoing (forall_mem_singleton.2 rfl) ?_
      intro hhonoured
      exact (Int.add_zero _).trans_le (hgoing.queued hhonoured)
    · exact hgoing.acquireFinal hgave (Nat.le_succ_of_le hpasses) hleft rfl rfl rfl hhonours
  · exact hgoing.acquireFinal hgave hpasses hgoing.retries rfl rfl rfl hhonours

/-- **Step lemma.** A pass ends the dispatch safely, or goes on. -/
theorem Going.pass (hgoing : Going h d honoured n log v) (hhonours : honoured → Honours h t.acquire) :
    Holds h d honoured (n + 1) ⟨log ++ (pass h d v t).1, (pass h d v t).2⟩ := by
  have hheads := @headers_quiet β F d v.queued
  have hbody := attempt_tries d v.lease t.exchange
  have hpass := hbody.headed hheads
  have hnowait : honoured → v.queued + 0 ≤ h.queueTimeout := by
    rw [Int.add_zero]
    exact hgoing.queued
  show Holds h d honoured (n + 1)
    ⟨log ++ (headers d v.queued ++ (attempt d v.lease t.exchange).1 ++
      (follow h d v t (attempt d v.lease t.exchange).2).1),
      (follow h d v t (attempt d v.lease t.exchange).2).2⟩
  cases hending : (attempt d v.lease t.exchange).2 with
  | none =>
    rw [hending] at hpass
    exact hgoing.over hpass nofun hnowait nofun
  | some res =>
    rw [hending] at hbody hpass
    unfold follow
    dsimp only
    split
    · -- Served: nothing follows, but for the panic that cuts a truncated response.
      rename_i hserved
      have hwritten : ∀ res', some res = some res' → res'.outcome ≠ .retryable := by
        rintro _ ⟨⟩
        rw [hserved]
        nofun
      refine hgoing.over hpass ?_ ?_ ?_
      · split <;> simp [Log.Quiet, Event.isQuiet]
      · split <;> exact hnowait
      · exact fun _ _ res' hres hretry => absurd hretry (hwritten res' hres)
    · rename_i hserved
      have hretry : res.outcome = .retryable := by
        cases houtcome : res.outcome with
        | served => exact absurd houtcome hserved
        | retryable => rfl
      split_ifs with hforwarded hfinal
      · refine hgoing.over hpass ?_ hnowait ?_
        · simp [Log.Quiet, Event.isQuiet]
        · intro _ hnot
          rw [hforwarded] at hnot
          cases hnot
      · obtain ⟨hquiet, hwaits, hanswers⟩ :=
          @writeExhausted_quiet β F d (v.allRefusal && res.refusal)
        refine hgoing.over hpass hquiet ?_ ?_
        · rw [hwaits]
          exact hnowait
        · rintro _ _ _ ⟨⟩ _
          exact hanswers
      · have hgave : GaveUp d v _ _ res := ⟨hheads, hbody, hretry,
          Bool.eq_false_iff.2 hforwarded, Bool.eq_false_iff.2 hfinal⟩
        exact hgoing.goOn hgave rfl hhonours

/-! ### The whole dispatch -/

omit [DecidableEq β] [Float64 F] in
/-- A dispatch that never had a lease. -/
theorem Safe.of_quiet (hlog : log.Quiet) (hwaits : honoured → log.waits.sum ≤ h.queueTimeout) :
    Safe h d honoured log := by
  have hattempts : log.attempts.length = 0 := length_eq_zero_iff.2 hlog.attempts
  refine ⟨?_, ?_, ?_, hwaits, ?_, ?_, ?_⟩
  · omega
  · omega
  · simpa only [append_nil] using written_append (fun _ => hlog.unwritten) Pairwise.nil
  · rw [hlog.ledger, hlog.leases]
    rfl
  · exact retried_append (a := []) hlog.leases List.Pairwise.nil
  · intro _ res hres
    rw [Log.fromFinal_of_leases hlog.leases] at hres
    cases hres

omit [DecidableEq β] [Float64 F] in
theorem start_holds (hhonours : honoured → Honours h first) :
    Holds h d honoured 0 (start h d first) := by
  have hwaits : honoured →
      (first { d.request with forwarded := d.forwarded }).1 ≤ h.queueTimeout :=
    fun hhonoured => hhonours hhonoured { d.request with forwarded := d.forwarded }
  unfold start
  split
  · rename_i waited e hfirst
    rw [hfirst] at hwaits
    obtain ⟨herr, hnone⟩ := writeFirstError_quiet h d e
    obtain ⟨hquiet, hsum⟩ := herr.waited hnone waited
    refine Safe.of_quiet hquiet ?_
    rw [hsum]
    exact hwaits
  · rename_i waited l hfirst
    rw [hfirst] at hwaits
    refine ⟨rfl, Nat.zero_le _, Nat.zero_le _, fun _ => rfl, ?_, sum_singleton, hwaits,
      ⟨[], rfl, rfl⟩, ?_, nofun, rfl, rfl, rfl⟩
    · exact forall_mem_cons.2 ⟨rfl, forall_mem_singleton.2 rfl⟩
    · simp

/-- **Run lemma.** Whatever the passes meet. -/
theorem passes_holds {turns : Nat → Turn β F} (hfirst : honoured → Honours h first)
    (hturns : ∀ i, honoured → Honours h (turns i).acquire) :
    ∀ n, Holds h d honoured n (passes h d first turns n) := by
  intro n
  induction n with
  | zero => exact start_holds hfirst
  | succ n ih =>
    rw [passes]
    unfold Dispatch.step
    unfold Holds at ih
    split
    · -- The dispatch is over and stays as it is.
      rename_i hvars
      rw [hvars] at ih
      unfold Holds
      rw [hvars]
      exact ih
    · rename_i v hvars
      rw [hvars] at ih
      exact ih.pass (hturns n)

/-- **A dispatch is bounded and leaks nothing.** Whatever the router answers and whatever becomes of
the attempts, it comes to an end, and is then safe; its waits, where `Acquire` honours the budget it
is passed. -/
theorem dispatch_safe (h : Handler β) (d : Call F) (first : Acquire β F) (turns : Nat → Turn β F) :
    (dispatch h d first turns).vars = none ∧
      Safe h d (Honours h first ∧ ∀ i, Honours h (turns i).acquire)
        (dispatch h d first turns).log := by
  have hholds : Holds h d (Honours h first ∧ ∀ i, Honours h (turns i).acquire) (h.forwardRetry + 2)
      (dispatch h d first turns) :=
    passes_holds (fun hall => hall.1) (fun i hall => hall.2 i) _
  unfold Holds at hholds
  cases hvars : (dispatch h d first turns).vars with
  | none =>
    rw [hvars] at hholds
    exact ⟨rfl, hholds⟩
  | some v =>
    -- It would have made more passes than there are retries and a final acquisition.
    rw [hvars] at hholds
    have hpasses := hholds.passes
    have hretries := hholds.retries
    split_ifs at hpasses <;> omega

/-! ### A busy mesh

One retry is configured. The peer of the first lease answers 503, the local backend of the retry
has no process, and the peer of the final acquisition answers 503 again. -/

def peerLeaseB : Lease Unit where
  id := 0
  target := { isLocal := false, node := "b", addr := "10.0.0.2:8080" }
  took := .peer ⟨"b", "m"⟩ ⟨0, 0⟩

def busyHandler : Handler Unit where
  router := { self := "a", staleAfter := 100, queueMax := 4, performance := false
              backendID := fun _ => "a-0" }
  forwardRetry := 1
  queueTimeout := 30

/-- A first acquisition queues for 20, another for as long as it may. -/
def busyAcquire : Acquire Unit ℚ := fun req =>
  (if req.queueBudget = 0 then 20 else max req.queueBudget 0, .ok peerLeaseB)

def busyTurn : Turn Unit ℚ where
  exchange :=
    { upstream :=
        { addr := "", built := true, signed := true
          reply := .ok { status := 503, sse := false, whole := true, pieces := [], eof := true
                         ctxEnded := false } } }
  router := .new
  env :=
    { backends := fun _ => some ([()], true), healthy := fun _ => true, slots := fun _ => 1
      addr := fun _ => "127.0.0.1:8001", reports := [], localScore := fun _ => none
      localImages := fun _ => .unknown, localKVShare := fun _ => none
      draw := fun _ => ⟨0, 0, 0, 0, 0, fun _ => 0⟩, order := fun _ => [] }
  draw := ⟨0, 0, 0, 0, 0, fun _ => 0⟩
  acquire := busyAcquire

def busyCall : Call ℚ := { model := "m", estK := 0 }

/-- Three attempts, all refused, within the timeout: the answer is a 503. -/
theorem dispatch_safe_busy :
    (dispatch busyHandler busyCall busyAcquire fun _ => busyTurn).log.attempts.length = 3 ∧
    (dispatch busyHandler busyCall busyAcquire fun _ => busyTurn).log.waits.sum ≤ 30 ∧
    (dispatch busyHandler busyCall busyAcquire fun _ => busyTurn).log.answers = [503] := by
  have hhonours : Honours busyHandler busyAcquire := by
    intro req
    show (if req.queueBudget = 0 then 20 else max req.queueBudget 0) ≤ allowance 30 req.queueBudget
    unfold allowance
    split_ifs <;> omega
  have hsafe := (dispatch_safe busyHandler busyCall busyAcquire fun _ => busyTurn).2
  have hlast : (dispatch busyHandler busyCall busyAcquire fun _ => busyTurn).log.fromFinal.results =
      [refused] := by decide +kernel
  have hall : (dispatch busyHandler busyCall busyAcquire fun _ => busyTurn).log.results.all
      (·.refusal) = true := by decide +kernel
  refine ⟨by decide +kernel, hsafe.waits ⟨hhonours, fun _ => hhonours⟩, ?_⟩
  have hanswers := hsafe.exhausted rfl refused (hlast ▸ mem_singleton_self _) rfl
  rw [hall] at hanswers
  exact hanswers

end Viiwork.Proxy
