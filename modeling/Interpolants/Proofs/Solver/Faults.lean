import Interpolants.Proofs.Lists
import Interpolants.Proofs.Solver.Framing

/-!
# Interpolants — requests behind a fault

A request that reads a line which is no UTF-8 fails there, in front of the rest of the reply and of
its marker. What is handed over stays in order (`Child.InStep`), so the next request is handed the
next reading of the same reply. A framed reply of the process takes one more request for each of its
faults (`ScriptedReply.Framed.length_readings`); hence a request is handed a part of the reply that
many places before its own.
-/

namespace Interpolants

/-- How many requests were handed an error. -/
def Exchange.faults (replies : List (Except SolverError String)) : Nat :=
  replies.countP fun reply => !reply.isOk

theorem Exchange.faults_append (replies more : List (Except SolverError String)) :
    faults (replies ++ more) = faults replies + faults more :=
  List.countP_append

/-! ## The readings of framed replies -/

namespace ScriptedReply

/-- A framed reply has one reading that is no fault, the last. -/
theorem Framed.length_readings {reply : ScriptedReply} (h : reply.Framed) :
    reply.readings.length = Exchange.faults reply.readings + 1 := by
  obtain ⟨faults, text, hreadings⟩ := h.exists_readings
  rw [hreadings, Exchange.faults_append]
  simp [Exchange.faults, Except.isOk, Except.toBool, List.countP_replicate]

/-- All readings before another one are faults. -/
theorem Framed.faults_of_readings_eq {reply : ScriptedReply} (h : reply.Framed)
    {earlier later : List (Except SolverError String)} {reading : Except SolverError String}
    (hreply : reply.readings = earlier ++ reading :: later) :
    Exchange.faults earlier = earlier.length := by
  obtain ⟨faults, text, hreadings⟩ := h.exists_readings
  rw [hreadings] at hreply
  have hlength := congrArg List.length hreply
  simp only [List.length_append, List.length_replicate, List.length_cons,
    List.length_nil] at hlength
  have hearlier : earlier = List.replicate earlier.length (.error (.io .invalidUtf8)) := by
    have htake := congrArg (List.take earlier.length) hreply
    rw [List.take_left, List.take_append_of_le_length (by rw [List.length_replicate]; omega),
      List.take_replicate, Nat.min_eq_left (by omega)] at htake
    exact htake.symm
  rw [hearlier]
  simp [Exchange.faults, Except.isOk, Except.toBool, List.countP_replicate]

/-- Replies are read in as many pieces as there are of them and of their faults. -/
theorem length_flatMap_readings {rs : List ScriptedReply} (hrs : ∀ k, (nth rs k).Framed) (n : Nat) :
    ((List.range n).flatMap fun k => (nth rs k).readings).length
      = n + Exchange.faults ((List.range n).flatMap fun k => (nth rs k).readings) := by
  induction n with
  | zero => rfl
  | succ n ih =>
    rw [List.range_succ, List.flatMap_append, List.flatMap_singleton, List.length_append, ih,
      Exchange.faults_append, (hrs n).length_readings]
    omega

end ScriptedReply

/-! ## Replies in order -/

section

variable {rs : List ScriptedReply} (hrs : ∀ k, (ScriptedReply.nth rs k).Framed) {n : Nat}
  {replies unread : List (Except SolverError String)}
  (h : replies ++ unread = (List.range n).flatMap fun k => (ScriptedReply.nth rs k).readings)
include hrs h

/-- A request is handed a part of the reply so many places before that of its index as there were
faults. -/
theorem exists_reply_of_getElem? {k : Nat} {reply : Except SolverError String}
    (hk : replies[k]? = some reply) :
    ∃ m earlier later, (ScriptedReply.nth rs m).readings = earlier ++ reply :: later ∧
      replies.take k = (List.range m).flatMap (fun i => (ScriptedReply.nth rs i).readings)
        ++ earlier ∧
      m + Exchange.faults (replies.take k) = k := by
  have hle : k ≤ replies.length := Nat.le_of_lt (List.getElem?_eq_some_iff.1 hk).1
  have htake : (replies ++ unread).take k = replies.take k := List.take_append_of_le_length hle
  have hwhole : (replies ++ unread)[k]? = some reply :=
    (List.getElem?_append_left (List.getElem?_eq_some_iff.1 hk).1).trans hk
  rw [h] at htake hwhole
  obtain ⟨m, earlier, later, hreply, hbefore⟩ := exists_of_getElem?_flatMap_range hwhole
  rw [htake] at hbefore
  refine ⟨m, earlier, later, hreply, hbefore, ?_⟩
  have hlength := congrArg List.length hbefore
  rw [List.length_take, Nat.min_eq_left hle, List.length_append,
    ScriptedReply.length_flatMap_readings hrs] at hlength
  rw [hbefore, Exchange.faults_append, (hrs m).faults_of_readings_eq hreply]
  omega

/-- Each reply ends with one text, so a fault leaves one more text unread. -/
theorem countP_isOk_unread :
    unread.countP (·.isOk) + replies.length = Exchange.faults replies + n := by
  have hlength := ScriptedReply.length_flatMap_readings hrs n
  rw [← h, List.length_append, Exchange.faults_append] at hlength
  have hunread : unread.length = unread.countP (·.isOk) + Exchange.faults unread := by
    rw [List.length_eq_countP_add_countP (·.isOk)]
    simp [Exchange.faults]
  omega

/-- What is unread ends with a text. -/
theorem exists_text_of_unread (hne : unread ≠ []) : ∃ text, .ok text ∈ unread := by
  cases n with
  | zero => exact absurd (List.append_eq_nil_iff.1 h).2 hne
  | succ n =>
    obtain ⟨faults, text, hreadings⟩ := (hrs n).exists_readings
    obtain ⟨before, last, rfl⟩ := (List.eq_nil_or_concat unread).resolve_left hne
    rw [List.range_succ, List.flatMap_append, List.flatMap_singleton, hreadings,
      ← List.append_assoc, List.concat_eq_append, ← List.append_assoc] at h
    obtain ⟨-, hlast⟩ := List.append_inj' h rfl
    rw [List.concat_eq_append, hlast]
    exact ⟨text, List.mem_append_right before (List.mem_singleton_self _)⟩

end

/-- **Behind a fault requests are handed parts of earlier replies.** In any session with a process
that goes on and writes its marker behind every reply, whatever the bytes of the replies and
whatever the operations give: what requests are handed, with what is still to be read, is the
readings of the replies given so far. A request is handed the next reading of a reply, after all
that was to be read of the replies before; and this reply is so many places before that of its index
as faults were handed over before. One marker is unread for each fault, besides those behind the
replies to lines of commands that look like requests. -/
theorem replies_behind_faults (invocation : Invocation) (program : String) (rs : List ScriptedReply)
    (folder : Folder) (recorded : Bool) (ops : List Operation)
    (hlaunch : (Connection.unlaunched invocation program rs folder).launchFault? = none)
    (hframed : ∀ r ∈ rs, r.Framed) :
    let p := Connection.unlaunched invocation program rs folder
    let run := Connection.converse ops (outcome (Connection.launch recorded) p).2
    let replies := Exchange.replies (p.exchanges run.1)
    let unread := Connection.readings [] run.2.child.output
    let stray := Command.requests (Exchange.commands (p.exchanges run.1))
    (∀ turn ∈ run.1, turn.operation.dialogue.Follows turn.exchanges turn.result) ∧
    replies ++ unread = (List.range (replies.length + stray)).flatMap
      (fun k => (ScriptedReply.nth rs k).readings) ∧
    (∀ k reply, replies[k]? = some reply → ∃ m earlier later,
      (ScriptedReply.nth rs m).readings = earlier ++ reply :: later ∧
      replies.take k = (List.range m).flatMap (fun i => (ScriptedReply.nth rs i).readings)
        ++ earlier ∧
      m + Exchange.faults (replies.take k) = k) ∧
    unread.countP (·.isOk) = Exchange.faults replies + stray ∧
    (run.2.child.output = [] ↔ Exchange.faults replies = 0 ∧ stray = 0) := by
  intro p run replies unread stray
  have hrs := ScriptedReply.framed_nth hframed
  have hstep := Connection.inStep_session hlaunch hrs recorded ops
  have haccounts : replies ++ unread = (List.range (replies.length + stray)).flatMap
      fun k => (ScriptedReply.nth rs k).readings := hstep.child.accounts
  have hunread : unread.countP (·.isOk) = Exchange.faults replies + stray := by
    have := countP_isOk_unread hrs haccounts
    omega
  refine ⟨Connection.follows_converse ops _, haccounts,
    fun k reply hk => exists_reply_of_getElem? hrs haccounts hk, hunread, ?_⟩
  -- the last thing unread is a text, so nothing is unread if no text is
  rw [← hstep.child.readings_eq_nil_iff, ← Nat.add_eq_zero_iff, ← hunread]
  refine ⟨fun hnone => congrArg (List.countP _) hnone, fun hnone => ?_⟩
  by_contra hne
  obtain ⟨text, htext⟩ := exists_text_of_unread hrs haccounts hne
  exact List.countP_eq_zero.1 hnone _ htext rfl

/-- Two checks, where the reply to the first starts with a line that is no text. -/
theorem replies_behind_faults_stale :
    let p := Connection.unlaunched { program := "z" } "z"
      [{ bytes := [255, 10, 115, 97, 116, 10] }, { text := "unsat" }] ⟨false, []⟩
    let run := Connection.converse [.checkSat, .checkSat] (outcome (Connection.launch false) p).2
    p.launchFault? = none ∧ (∀ r ∈ p.child.replies, r.Framed) ∧
      Exchange.replies (p.exchanges run.1) = [.error (.io .invalidUtf8), .ok "sat"] ∧
      run.2.child.output ≠ [] := by
  intro p run
  have hlaunch : p.launchFault? = none := by decide
  have hmarker : Reply.isMarker (String.ofList Reply.marker).toList = true := by decide
  have hframed : ∀ r ∈ p.child.replies, r.Framed := by
    intro r hr
    rcases List.mem_cons.1 hr with rfl | hr
    · exact ⟨rfl, ⟨_, rfl, hmarker⟩, by decide +kernel⟩
    · rw [List.mem_singleton.1 hr]
      exact ⟨rfl, ⟨_, rfl, hmarker⟩, by decide +kernel⟩
  have hreplies : Exchange.replies (p.exchanges run.1)
      = [.error (.io .invalidUtf8), .ok "sat"] := by
    decide +kernel
  obtain ⟨-, -, -, -, hunread⟩ :=
    replies_behind_faults p.invocation p.program p.child.replies p.folder
    false [.checkSat, .checkSat] hlaunch hframed
  -- all is read only after a session without faults, and this one had a fault
  refine ⟨hlaunch, hframed, hreplies, hunread.not.2 fun hnone => ?_⟩
  have hfaults : Exchange.faults (Exchange.replies (p.exchanges run.1)) = 0 := hnone.1
  rw [hreplies] at hfaults
  cases hfaults

/-- Three checks, the first of which fails. The second is answered by what is left of the reply to
the first, and the third by the reply to the second. The transcript is then saved many times, so
that the process has time to answer the third as well. -/
theorem checkSat_behind_fault :
    let rs : List ScriptedReply :=
      [{ bytes := [255, 10, 115, 97, 116, 10] }, { text := "unsat" }, { text := "sat" }]
    let p := Connection.unlaunched { program := "z" } "z" rs ⟨true, []⟩
    let launched := (outcome (Connection.launch true) p).2
    let run := Connection.converse (List.replicate 3 .checkSat ++ List.replicate 256 .save) launched
    run.1.map Turn.result = .error (.io .invalidUtf8) :: .ok (.verdict .sat)
      :: .ok (.verdict .unsat)
        :: List.replicate 256 (.ok (.saved true)) ∧
      (ScriptedReply.nth rs 1).readings = [.ok "unsat"] ∧
      (ScriptedReply.nth rs 2).readings = [.ok "sat"] ∧
      run.2.child.answered = ["(check-sat)", "(check-sat)", "(check-sat)"] := by
  decide +kernel

end Interpolants
