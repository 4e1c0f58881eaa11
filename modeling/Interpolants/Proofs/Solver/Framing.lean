import Interpolants.Proofs.Solver.Dialogue
import Interpolants.Proofs.Solver.Reading
import Mathlib.Data.List.Forall2

/-!
# Interpolants — requests and replies in step

A process that goes on gives one reply for each request for the marker. What it has written is read
in that order: what operations were handed so far, with what is still to be read, is exactly the
replies given so far (`Child.InStep`). Each exchange keeps this, whatever the operations give.

The lines that make the process reply are the requests of the operations and, since commands are
written as they are, any line of a command that looks like one (`Command.requests`). As long as the
replies are texts, the replies to these lines are all that stays unread.
-/

namespace Interpolants

open Text

/-- The reply to a request; behind the last of the list the replies are empty. -/
def ScriptedReply.nth (rs : List ScriptedReply) (k : Nat) : ScriptedReply :=
  rs.getD k {}

/-- How many lines of some commands are requests for the marker. -/
def Command.requests (commands : List Sexp) : Nat :=
  (commands.flatMap fun command => pieces '\n' command.chars).count Reply.echoRequest

theorem Command.requests_append (commands more : List Sexp) :
    requests (commands ++ more) = requests commands + requests more := by
  rw [requests, List.flatMap_append, List.count_append]
  rfl

theorem Command.requests_singleton (command : Sexp) :
    requests [command] = (pieces '\n' command.chars).count Reply.echoRequest := by
  rw [requests, List.flatMap_singleton]

/-! ## The process -/

/-- A process that goes on has given the first of some replies, and what was handed over of what it
has written, with what can still be read of it, is these replies. -/
structure Child.InStep (rs : List ScriptedReply) (given : Nat)
    (handed : List (Except SolverError String)) (c : Child) : Prop where
  listening : c.listening = true
  remaining : c.replies = rs.drop given
  ended : Connection.Ended c.output
  accounts : handed ++ Connection.readings [] c.output
    = (List.range given).flatMap fun k => (ScriptedReply.nth rs k).readings

namespace Child.InStep

variable {rs : List ScriptedReply} {given : Nat} {handed : List (Except SolverError String)}
    {c : Child}

/-- Before anything is exchanged, a process is in step. -/
theorem initial (rs : List ScriptedReply) : InStep rs 0 [] { replies := rs } :=
  ⟨rfl, rfl, Connection.ended_nil, rfl⟩

/-- The next reply is the one whose turn it is. -/
theorem headD_replies (h : c.InStep rs given handed) :
    c.replies.headD {} = ScriptedReply.nth rs given := by
  rw [h.remaining, List.headD_eq_head?_getD, List.head?_drop, ScriptedReply.nth,
    List.getD_eq_getElem?_getD]

/-- An answer is the reply whose turn it is. -/
theorem output_answer (h : c.InStep rs given handed) :
    c.answer.output = c.output ++ (ScriptedReply.nth rs given).lines := by
  rw [← h.headD_replies]
  rfl

/-- A reply is read behind everything that the process has written before. -/
theorem answer (h : c.InStep rs given handed) (hreply : (ScriptedReply.nth rs given).Framed) :
    c.answer.InStep rs (given + 1) handed := by
  have houtput := h.output_answer
  refine ⟨?_, ?_, ?_, ?_⟩
  · show (!(c.replies.headD {}).closes) = true
    rw [h.headD_replies, hreply.goes_on]
    rfl
  · rw [Child.answer, h.remaining, List.drop_drop]
  · rw [houtput]
    exact h.ended.append hreply.ended.1
  · rw [houtput, Connection.readings_append h.ended, ← List.append_assoc, h.accounts,
      List.range_succ, List.flatMap_append, List.flatMap_singleton]
    rfl

/-- A line that is read keeps the process in step, with one more reply if it is a request. -/
theorem hearLine (h : c.InStep rs given handed) (hrs : ∀ k, (ScriptedReply.nth rs k).Framed)
    (line : List Char) :
    (c.hearLine line).InStep rs (given + [line].count Reply.echoRequest) handed := by
  rw [Child.hearLine, if_neg (by simp [h.listening])]
  by_cases hline : line = Reply.echoRequest
  · rw [if_pos hline, hline, List.count_singleton_self]
    exact h.answer (hrs given)
  · rw [if_neg hline, List.count_singleton, if_neg (by simpa using hline)]
    exact { h with }

/-- Lines that are read keep the process in step, with as many more replies as there are
requests. -/
theorem foldl_hearLine (h : c.InStep rs given handed) (hrs : ∀ k, (ScriptedReply.nth rs k).Framed)
    (lines : List (List Char)) :
    (lines.foldl Child.hearLine c).InStep rs (given + lines.count Reply.echoRequest) handed := by
  induction lines generalizing c given with
  | nil => exact h
  | cons line lines ih =>
    have hrest := ih (h.hearLine hrs line)
    rwa [Nat.add_assoc, ← List.count_append] at hrest

/-- The process replies to each line of a message that is a request. -/
theorem hear (h : c.InStep rs given handed) (hrs : ∀ k, (ScriptedReply.nth rs k).Framed)
    (message : List Char) :
    (c.hear message).InStep rs (given + (pieces '\n' message).count Reply.echoRequest) handed := by
  have hlines := h.foldl_hearLine hrs (pieces '\n' message)
  rcases c.hear_eq_or message with hheard | hheard <;> rw [hheard]
  · exact hlines
  · exact { hlines with }

/-- Nothing is unread if nothing can be handed over. -/
theorem readings_eq_nil_iff (h : c.InStep rs given handed) :
    Connection.readings [] c.output = [] ↔ c.output = [] := by
  refine ⟨fun hnone => ?_, fun hnone => hnone ▸ rfl⟩
  by_contra hne
  exact Connection.readings_ne_nil h.ended hne hnone

/-- Whatever is unread is handed over from its start. -/
theorem read (h : c.InStep rs given handed) (hne : c.output ≠ []) :
    ∃ reading rest, Connection.collect [] c.output = (reading, rest) ∧
      { c with output := rest }.InStep rs given (handed ++ [reading]) := by
  obtain ⟨reading, more, hreadings⟩ :=
    List.exists_cons_of_ne_nil (Connection.readings_ne_nil h.ended hne)
  obtain ⟨rest, hcollect, hsuffix, hmore⟩ := Connection.exists_collect_of_readings hreadings
  refine ⟨reading, rest, hcollect, h.listening, h.remaining, h.ended.of_suffix hsuffix, ?_⟩
  rw [← h.accounts, hreadings, ← hmore]
  exact (List.append_cons ..).symm

end Child.InStep

/-! ## The connection -/

namespace Connection

/-- A connection whose process is in step with what was exchanged so far. -/
structure InStep (rs : List ScriptedReply) (exchanges : List Exchange) (p : Connection) : Prop where
  delivered : p.undelivered = false
  child : p.child.InStep rs
    ((Exchange.replies exchanges).length + Command.requests (Exchange.commands exchanges))
    (Exchange.replies exchanges)

variable {rs : List ScriptedReply} {log : List Exchange} {p : Connection}

/-- A command keeps the connection in step. -/
theorem InStep.send (h : p.InStep rs log) (hrs : ∀ k, (ScriptedReply.nth rs k).Framed)
    (command : Sexp) : (p.send command).InStep rs (log ++ [.told command]) := by
  have hreplies : Exchange.replies (log ++ [.told command]) = Exchange.replies log := by
    rw [Exchange.replies_append]
    exact List.append_nil _
  have hrequests : Command.requests (Exchange.commands (log ++ [.told command]))
      = Command.requests (Exchange.commands log)
        + (pieces '\n' command.chars).count Reply.echoRequest := by
    rw [Exchange.commands_append, Command.requests_append, ← Command.requests_singleton]
    rfl
  rw [send_of_listening h.delivered h.child.listening]
  refine ⟨h.delivered, ?_⟩
  rw [hreplies, hrequests, ← Nat.add_assoc]
  exact h.child.hear hrs command.chars

/-- What is neither sent nor handed over does not concern the process. -/
theorem InStep.annotate (h : p.InStep rs log) {exchange : Exchange}
    (hcommands : Exchange.commands [exchange] = []) (hreplies : Exchange.replies [exchange] = [])
    {q : Connection} (hdelivered : q.undelivered = p.undelivered) (hchild : q.child = p.child) :
    q.InStep rs (log ++ [exchange]) := by
  refine ⟨hdelivered.trans h.delivered, ?_⟩
  rw [Exchange.commands_append, hcommands, Exchange.replies_append, hreplies, List.append_nil,
    List.append_nil, hchild]
  exact h.child

/-- A request makes the process reply once more, and is handed the first of what is unread. -/
theorem InStep.request (h : p.InStep rs log) (hrs : ∀ k, (ScriptedReply.nth rs k).Framed) :
    (outcome reply p).2.InStep rs (log ++ [.handed (outcome reply p).1]) := by
  have hanswer := h.child.hear hrs Reply.echoRequest
  -- the answer to the request is a reply, so there is something to read
  have hne : (p.child.hear Reply.echoRequest).output ≠ [] := by
    rw [Child.output_hear, Child.foldl_hearLine_request h.child.listening, h.child.output_answer]
    exact List.append_ne_nil_of_right_ne_nil _ (hrs _).ended.2
  obtain ⟨reading, rest, hcollect, hread⟩ := hanswer.read hne
  have houtcome : outcome reply p
      = (reading, { p with child := { p.child.hear Reply.echoRequest with output := rest } }) := by
    rw [outcome_reply h.delivered h.child.listening, hcollect]
  rw [houtcome]
  refine ⟨h.delivered, ?_⟩
  rw [Exchange.commands_append, Exchange.replies_append]
  -- the request is one more line that asks for the marker, and it has been handed one reading more
  have hcount : (Exchange.replies log ++ [reading]).length
        + Command.requests (Exchange.commands log ++ [])
      = (Exchange.replies log).length + Command.requests (Exchange.commands log)
        + (pieces '\n' Reply.echoRequest).count Reply.echoRequest := by
    rw [show (pieces '\n' Reply.echoRequest).count Reply.echoRequest = 1 by decide,
      List.length_append, List.append_nil, List.length_singleton]
    omega
  exact hcount ▸ hread

/-- All exchanges keep a connection in step. -/
theorem invariant_inStep (hrs : ∀ k, (ScriptedReply.nth rs k).Framed) : Invariant (InStep rs) where
  send h command := h.send hrs command
  comment h _ := h.annotate rfl rfl rfl rfl
  save h := h.annotate rfl rfl (child_save _).1 (child_save _).2
  request h := h.request hrs

/-- **A session stays in step**, from its launch on and whatever the operations give. -/
theorem inStep_session {invocation : Invocation} {program : String} {folder : Folder}
    (hlaunch : (unlaunched invocation program rs folder).launchFault? = none)
    (hrs : ∀ k, (ScriptedReply.nth rs k).Framed) (recorded : Bool) (ops : List Operation) :
    let p := unlaunched invocation program rs folder
    let run := converse ops (outcome (launch recorded) p).2
    run.2.InStep rs (p.exchanges run.1) :=
  (invariant_inStep hrs).session hlaunch recorded ⟨rfl, .initial rs⟩ ops

end Connection

/-! ## Replies one after the other -/

namespace ScriptedReply

theorem framed_default : ({} : ScriptedReply).Framed :=
  ⟨rfl, ⟨_, rfl, by rw [String.toList_ofList]; decide⟩, nofun⟩

/-- The reply behind the last is an empty text. -/
theorem isText_default : ({} : ScriptedReply).IsText [] :=
  ⟨framed_default, rfl⟩

/-- A text without a marker, and a marker behind it. -/
theorem isText_of_unmarked {text marker : String} (hmarker : Reply.isMarker marker.toList = true)
    (htext : ∀ line ∈ terminated '\n' text.toList, Reply.isMarker (trimEnd line) = false) :
    ({ text, marker := some marker } : ScriptedReply).IsText text.toList := by
  have hbytes : utf8 text.toList ++ [] = utf8 text.toList := List.append_nil _
  refine ⟨⟨rfl, ⟨marker, rfl, hmarker⟩, ?_⟩, hbytes⟩
  rw [hbytes, terminated_utf8]
  intro _ hline text hsome
  obtain ⟨line, hmem, rfl⟩ := List.mem_map.1 hline
  rw [Connection.lineText?_utf8, Option.mem_some] at hsome
  exact hsome ▸ htext line hmem

/-- If the listed replies are framed, then all are. -/
theorem framed_nth {rs : List ScriptedReply} (h : ∀ r ∈ rs, r.Framed) (k : Nat) :
    (nth rs k).Framed := by
  rw [nth, List.getD_eq_getElem?_getD]
  cases hk : rs[k]? with
  | none => exact framed_default
  | some r => exact h r (List.mem_of_getElem? hk)

/-- If the listed replies are texts, then all are. -/
theorem isText_nth {rs : List ScriptedReply} {said : List (List Char)}
    (h : List.Forall₂ IsText rs said) (k : Nat) : (nth rs k).IsText (said.getD k []) := by
  induction h generalizing k with
  | nil => exact isText_default
  | cons hr _ ih =>
    cases k with
    | zero => exact hr
    | succ k => exact ih k

end ScriptedReply

/-- **Requests and replies are in step.** In any session with a process that gives texts for
replies, and whatever its operations give: a request is handed the text of the reply of its index,
and each operation gives what it comes to with what it was handed. What is unread behind the
operations are the replies to the lines of commands that look like requests, so nothing is unread
exactly if there is no such line. -/
theorem replies_in_step (invocation : Invocation) (program : String) (rs : List ScriptedReply)
    (said : List (List Char)) (folder : Folder) (recorded : Bool) (ops : List Operation)
    (hlaunch : (Connection.unlaunched invocation program rs folder).launchFault? = none)
    (hsaid : List.Forall₂ ScriptedReply.IsText rs said) :
    let p := Connection.unlaunched invocation program rs folder
    let launched := outcome (Connection.launch recorded) p
    let run := Connection.converse ops launched.2
    let replies := Exchange.replies (p.exchanges run.1)
    let stray := Command.requests (Exchange.commands (p.exchanges run.1))
    launched.1 = .ok () ∧
    (∀ turn ∈ run.1, turn.operation.dialogue.Follows turn.exchanges turn.result) ∧
    replies = (List.range replies.length).map (fun k => Except.ok (Reply.text (said.getD k []))) ∧
    Connection.readings [] run.2.child.output
      = (List.range' replies.length stray).map (fun k => Except.ok (Reply.text (said.getD k []))) ∧
    (run.2.child.output = [] ↔ stray = 0) := by
  intro p launched run replies stray
  have htexts := ScriptedReply.isText_nth hsaid
  have hstep := Connection.inStep_session hlaunch (fun k => (htexts k).toFramed) recorded ops
  -- the replies come one after the other, those that requests were handed before those still unread
  have haccounts : replies ++ Connection.readings [] run.2.child.output
      = (List.range replies.length).map (fun k => Except.ok (Reply.text (said.getD k [])))
        ++ (List.range' replies.length stray).map
          fun k => Except.ok (Reply.text (said.getD k [])) := by
    have hrange : List.range (replies.length + stray)
        = List.range replies.length ++ List.range' replies.length stray := by
      rw [List.range_eq_range', List.range_eq_range', ← List.range'_append_1, Nat.zero_add]
    rw [hstep.child.accounts, ← List.map_append, ← hrange, List.map_eq_flatMap]
    simp only [fun k => (htexts k).readings_eq]
    rfl
  obtain ⟨hreplies, hunread⟩ := List.append_inj haccounts (by simp)
  refine ⟨congrArg Prod.fst (Connection.outcome_launch hlaunch recorded),
    Connection.follows_converse ops launched.2, hreplies, hunread, ?_⟩
  rw [← hstep.child.readings_eq_nil_iff, hunread, List.map_eq_nil_iff, List.range'_eq_nil_iff]

/-- A check whose reply acknowledges the options first. -/
theorem replies_in_step_acknowledged :
    let p := Connection.unlaunched { program := "z", options := [("print-success", "false")] } "z"
      [{ text := "success\nsat \n" }] ⟨false, []⟩
    let run := Connection.converse [.checkSat] (outcome (Connection.launch false) p).2
    p.launchFault? = none ∧ Exchange.replies (p.exchanges run.1) = [.ok "sat"] ∧
      run.2.child.output = [] := by
  intro p run
  have hlaunch : p.launchFault? = none := by decide
  have hsaid : ScriptedReply.IsText { text := "success\nsat \n" } "success\nsat \n".toList :=
    ScriptedReply.isText_of_unmarked (by decide) (by decide)
  obtain ⟨-, -, hreplies, -, hunread⟩ := replies_in_step p.invocation p.program p.child.replies
    ["success\nsat \n".toList] p.folder false [.checkSat] hlaunch (.cons hsaid .nil)
  have hlength : (Exchange.replies (p.exchanges run.1)).length = 1 := by decide +kernel
  have hstray : Command.requests (Exchange.commands (p.exchanges run.1)) = 0 := by decide +kernel
  change Exchange.replies (p.exchanges run.1)
    = List.map _ (List.range (Exchange.replies (p.exchanges run.1)).length) at hreplies
  rw [hlength] at hreplies
  exact ⟨hlaunch, hreplies.trans (by decide), hunread.2 hstray⟩

/-- A symbol with a line that looks like a request. The process replies to it, its reply is not
read, and the check behind it is handed that reply instead of its own. -/
theorem replies_not_in_step :
    let p := Connection.unlaunched { program := "z" } "z" [{ text := "sat" }, { text := "unsat" }]
      ⟨false, []⟩
    let launched := (outcome (Connection.launch false) p).2
    let command := Sexp.symbol "\n(echo \"<<DONE>>\")\n"
    List.Forall₂ ScriptedReply.IsText p.child.replies ["sat".toList, "unsat".toList] ∧
      (Connection.converse [.send command] launched).2.child.output ≠ [] ∧
      (Connection.converse [.send command, .checkSat] launched).1.map Turn.result
        = [.ok .silence, .ok (.verdict .sat)] := by
  intro p launched command
  have hsat : ScriptedReply.IsText { text := "sat" } "sat".toList :=
    ScriptedReply.isText_of_unmarked (by decide) (by decide)
  have hunsat : ScriptedReply.IsText { text := "unsat" } "unsat".toList :=
    ScriptedReply.isText_of_unmarked (by decide) (by decide)
  exact ⟨.cons hsat (.cons hunsat .nil), by decide +kernel, by decide +kernel⟩

end Interpolants
