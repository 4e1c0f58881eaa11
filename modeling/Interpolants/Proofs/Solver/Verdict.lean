import Interpolants.Proofs.Solver.Dialogue
import Interpolants.Proofs.Solver.Reading

/-!
# Interpolants — what the answers to questions rest on

A question is handed the text up to the marker or finds that there is none (`Connection.Hands`,
`Connection.RunsOut`); both are told from what the process has written. What the operation gives is
then settled by the text: an answer by a single text or a single list, and an error by the first
report of one, whatever else the text holds.
-/

namespace Interpolants

open Text

/-! ## The text of a reply -/

/-- The lines of a reply that count, without the blanks at their ends. -/
def Reply.kept (lines : List (List Char)) : List (List Char) :=
  (lines.map trimEnd).filter fun line => !Reply.isAcknowledgement line

/-- The text of a reply of some lines. -/
def Reply.joined (lines : List (List Char)) : String :=
  String.ofList (trimEnd (unlines (Reply.kept lines)))

namespace Connection

/-- The process answers the next request with some lines of text, a marker, and perhaps more. The
reply is the text of the lines up to the marker. -/
def Hands (p : Connection) (reply : String) : Prop :=
  p.undelivered = false ∧ p.child.listening = true ∧
    ∃ (lines : List (List Char)) (marker : List Char) (unread : List (List UInt8)),
      (p.child.hear Reply.echoRequest).output = lines.map utf8 ++ utf8 marker :: unread ∧
      (∀ line ∈ lines, Reply.isMarker (trimEnd line) = false) ∧
      Reply.isMarker (trimEnd marker) = true ∧ reply = Reply.joined lines

/-- The next request cannot be written, or what the process has written by then is text without a
marker. -/
def RunsOut (p : Connection) : Prop :=
  p.undelivered = true ∨ p.child.listening = false ∨
    ∃ lines : List (List Char), (p.child.hear Reply.echoRequest).output = lines.map utf8 ∧
      ∀ line ∈ lines, Reply.isMarker (trimEnd line) = false

/-- A line is read if it is UTF-8. -/
theorem lineText?_eq_some_iff {line : List UInt8} {text : List Char} :
    lineText? line = some text ↔ ∃ cs, line = utf8 cs ∧ text = trimEnd cs := by
  rw [lineText?, Option.map_eq_some_iff]
  simp only [ofUtf8?_eq_some_iff, eq_comm (a := trimEnd _)]

/-- Lines without a marker are read, whatever comes behind them. -/
theorem collect_unmarked {lines : List (List Char)}
    (hlines : ∀ line ∈ lines, Reply.isMarker (trimEnd line) = false) (kept : List (List Char))
    (rest : List (List UInt8)) :
    collect kept (lines.map utf8 ++ rest) = collect (kept ++ Reply.kept lines) rest := by
  induction lines generalizing kept with
  | nil => simp [Reply.kept]
  | cons line lines ih =>
    have hrest := fun kept => ih (fun l hl => hlines l (List.mem_cons_of_mem line hl)) kept
    rw [List.map_cons, List.cons_append, collect, lineText?_utf8]
    simp only [hlines line List.mem_cons_self, Bool.false_eq_true, if_false]
    rw [hrest]
    cases hack : Reply.isAcknowledgement (trimEnd line) <;> simp [Reply.kept, hack]

/-- Reading ends at a marker, with the lines that were kept. -/
theorem collect_marked {marker : List Char} (hmarker : Reply.isMarker (trimEnd marker) = true)
    (kept : List (List Char)) (rest : List (List UInt8)) :
    collect kept (utf8 marker :: rest) = (.ok (String.ofList (trimEnd (unlines kept))), rest) := by
  rw [collect, lineText?_utf8]
  exact if_pos hmarker

/-- A reading with a text has come to a marker. -/
theorem exists_of_collect_eq_ok {output : List (List UInt8)} {kept : List (List Char)}
    {reply : String} (h : (collect kept output).1 = .ok reply) :
    ∃ (lines : List (List Char)) (marker : List Char) (unread : List (List UInt8)),
      output = lines.map utf8 ++ utf8 marker :: unread ∧
      (∀ line ∈ lines, Reply.isMarker (trimEnd line) = false) ∧
      Reply.isMarker (trimEnd marker) = true := by
  induction output generalizing kept with
  | nil => cases h
  | cons line rest ih =>
    rw [collect] at h
    cases hline : lineText? line with
    | none =>
      rw [hline] at h
      cases h
    | some text =>
      -- a line that is read is text, and a marker among them ends the reading
      obtain ⟨cs, rfl, rfl⟩ := lineText?_eq_some_iff.1 hline
      rw [hline] at h
      cases hmarker : Reply.isMarker (trimEnd cs) with
      | true => exact ⟨[], cs, rest, rfl, List.forall_mem_nil _, hmarker⟩
      | false =>
        simp only [hmarker, Bool.false_eq_true, if_false] at h
        obtain ⟨lines, marker, unread, hrest, hlines, hmarked⟩ := ih h
        exact ⟨cs :: lines, marker, unread, congrArg (_ :: ·) hrest,
          List.forall_mem_cons.2 ⟨hmarker, hlines⟩, hmarked⟩

variable {p : Connection} {reply : String}

/-- **A request gives a text exactly if the process hands it.** -/
theorem outcome_reply_eq_ok_iff : (outcome Connection.reply p).1 = .ok reply ↔ p.Hands reply := by
  constructor
  · intro h
    rcases p.closed_or_open with hclosed | ⟨hdelivered, hlistening⟩
    · rw [outcome_reply_of_closed hclosed] at h
      cases h
    · rw [outcome_reply hdelivered hlistening] at h
      obtain ⟨lines, marker, unread, houtput, hlines, hmarker⟩ := exists_of_collect_eq_ok h
      refine ⟨hdelivered, hlistening, lines, marker, unread, houtput, hlines, hmarker, ?_⟩
      rw [houtput, collect_unmarked hlines, collect_marked hmarker] at h
      exact (Except.ok.inj h).symm
  · rintro ⟨hdelivered, hlistening, lines, marker, unread, houtput, hlines, hmarker, rfl⟩
    rw [outcome_reply hdelivered hlistening, houtput, collect_unmarked hlines,
      collect_marked hmarker]
    rfl

/-- A request is handed the text up to the marker. -/
theorem Hands.outcome_reply_eq (h : p.Hands reply) :
    outcome Connection.reply p = (.ok reply, (outcome Connection.reply p).2) :=
  Prod.ext (outcome_reply_eq_ok_iff.2 h) rfl

/-- A request without a marker in front of it stops the session. -/
theorem RunsOut.exists_outcome_reply (h : p.RunsOut) :
    ∃ text, (outcome Connection.reply p).1 = .error (.stopped text) := by
  rcases p.closed_or_open with hclosed | ⟨hdelivered, hlistening⟩
  · rw [outcome_reply_of_closed hclosed]
    exact ⟨_, rfl⟩
  · obtain ⟨lines, houtput, hlines⟩ :=
      (or_assoc.2 h).resolve_left (by simp [hdelivered, hlistening])
    have hcollect := collect_unmarked hlines [] []
    rw [List.append_nil, ← houtput] at hcollect
    rw [outcome_reply hdelivered hlistening, hcollect]
    exact ⟨_, rfl⟩

end Connection

/-! ## What a text reports -/

theorem Sexp.app?_eq_some_iff {t : Sexp} {head : String} {args : List Sexp} :
    t.app? = some (head, args) ↔ t = .app head args := by
  unfold Sexp.app?
  split <;> simp_all [Sexp.app, Sexp.symbol]

theorem Sexp.symbol?_eq_some_iff {t : Sexp} {s : String} : t.symbol? = some s ↔ t = .symbol s := by
  unfold Sexp.symbol?
  split <;> simp_all [Sexp.symbol]

namespace Reply

/-- The form in which an error is reported. -/
def report (message : String) : Sexp :=
  .app "error" [.symbol message]

/-- The first report among the s-expressions of a text is of a message. -/
def Reports (reply message : String) : Prop :=
  ∃ before behind, Sexp.parseMany reply = .ok (before ++ report message :: behind) ∧
    ∀ earlier, report earlier ∉ before

/-- A single s-expression reports an error if it has the form of a report. -/
theorem errorMessage?_singleton {t : Sexp} {message : String} :
    errorMessage? [t] = some message ↔ t = report message := by
  constructor
  · intro h
    rw [errorMessage?, List.findSome?_singleton] at h
    split at h
    · next text happ =>
      rw [Sexp.symbol?_eq_some_iff] at h
      rw [h] at happ
      exact Sexp.app?_eq_some_iff.1 happ
    · cases h
  · rintro rfl
    rfl

/-- The first report among some s-expressions is that of the first of them with one. -/
theorem errorMessage?_eq (items : List Sexp) :
    errorMessage? items = items.findSome? fun t => errorMessage? [t] := by
  simp only [errorMessage?, List.findSome?_singleton]

/-- A message is reported if its report is there, and no other report before it. -/
theorem errorMessage?_eq_some_iff {items : List Sexp} {message : String} :
    errorMessage? items = some message ↔
      ∃ before behind, items = before ++ report message :: behind ∧
      ∀ earlier, report earlier ∉ before := by
  rw [errorMessage?_eq, List.findSome?_eq_some_iff]
  constructor
  · rintro ⟨before, t, behind, hitems, ht, hbefore⟩
    rw [errorMessage?_singleton] at ht
    refine ⟨before, behind, ht ▸ hitems, fun earlier hmem => ?_⟩
    have hnone := hbefore _ hmem
    rw [errorMessage?_singleton.2 rfl] at hnone
    cases hnone
  · rintro ⟨before, behind, hitems, hbefore⟩
    refine ⟨before, _, behind, hitems, errorMessage?_singleton.2 rfl, fun t ht => ?_⟩
    rw [Option.eq_none_iff_forall_ne_some]
    intro earlier hearlier
    exact hbefore earlier (errorMessage?_singleton.1 hearlier ▸ ht)

variable {reply message : String}

/-- What a text reports is the first report among its s-expressions. -/
theorem reports_iff {items : List Sexp} (h : Sexp.parseMany reply = .ok items) :
    Reports reply message ↔ errorMessage? items = some message := by
  rw [errorMessage?_eq_some_iff, Reports, h]
  simp only [Except.ok.injEq]

theorem Reports.exists_items (h : Reports reply message) :
    ∃ items, Sexp.parseMany reply = .ok items ∧ errorMessage? items = some message := by
  obtain ⟨before, behind, hparse, hbefore⟩ := h
  exact ⟨_, hparse, errorMessage?_eq_some_iff.2 ⟨before, behind, rfl, hbefore⟩⟩

/-- A reply that reports an error is no answer. -/
theorem Reports.single_eq (h : Reports reply message) :
    single reply = .error (.stopped message) := by
  obtain ⟨items, hparse, hmessage⟩ := h.exists_items
  unfold single
  rw [hparse]
  simp only [hmessage]

/-- The text of a reported error is its message. -/
theorem Reports.errorText_eq (h : Reports reply message) : errorText reply = message := by
  obtain ⟨items, hparse, hmessage⟩ := h.exists_items
  unfold errorText
  rw [hparse]
  simp only [hmessage, Option.getD_some]

/-- A text that is a single symbol reports nothing. -/
theorem Reports.ne_of_parseMany (h : Reports reply message) {text s : String}
    (htext : Sexp.parseMany text = .ok [.symbol s]) : reply ≠ text := by
  rintro rfl
  rw [reports_iff htext] at h
  cases h

/-- A reply is an answer if it is one s-expression and reports no error. -/
theorem single_eq_ok_iff {item : Sexp} :
    single reply = .ok item ↔ Sexp.parseMany reply = .ok [item] ∧
    ∀ message, ¬ Reports reply message := by
  unfold single
  cases hparse : Sexp.parseMany reply with
  | error position => simp
  | ok items =>
    simp only [reports_iff hparse]
    cases hmessage : errorMessage? items with
    | some message => simp
    | none =>
      match items with
      | [] | [_] | _ :: _ :: _ => simp

/-- The value under a keyword stands behind the keyword in a list. -/
theorem info_eq_ok_iff {keyword : String} {item value : Sexp} :
    info keyword item = .ok value ↔ item = .list [.symbol keyword, value] := by
  unfold info
  split
  · next key value' =>
    by_cases hkey : key.symbol? = some keyword
    · rw [if_pos hkey, Sexp.symbol?_eq_some_iff.1 hkey]
      simp
    · rw [if_neg hkey]
      simp only [reduceCtorEq, Sexp.list.injEq, List.cons.injEq, and_true, false_iff, not_and]
      rintro rfl
      exact absurd rfl hkey
  · next hne =>
    simp only [reduceCtorEq, false_iff]
    exact hne _ _

/-- Some terms are the items of a list. -/
theorem terms_eq_ok_iff {item : Sexp} {items : List Sexp} :
    terms item = .ok items ↔ item = .list items := by
  unfold terms
  split <;> simp_all

end Reply

/-! ## Questions -/

namespace Connection

/-- A step that sends a command and goes on with the text it is handed. It gives nothing without a
text, stops where there is none, and stops with the first error that the text reports. -/
structure Asks {α : Type} (step : Step Connection α) (command : Sexp) (p : Connection) : Prop where
  handed : ∀ a, (outcome step p).1 = .ok a → ∃ reply, (p.send command).Hands reply
  runs_out : (p.send command).RunsOut → ∃ text, (outcome step p).1 = .error (.stopped text)
  reported : ∀ reply message, (p.send command).Hands reply → Reply.Reports reply message →
    (outcome step p).1 = .error (.stopped message)

variable {p : Connection} {command : Sexp} {reply : String}

theorem outcome_ofResult {α : Type} (result : Except SolverError α) (p : Connection) :
    outcome (ofResult result) p = (result, p) := by
  cases result <;> rfl

section

variable {α : Type} {next : String → Step Connection α}

/-- A question goes on with the text that it is handed. -/
theorem outcome_question_of_hands (h : (p.send command).Hands reply) :
    outcome (do modify (·.send command); next (← Connection.reply)) p
      = outcome (next reply) (outcome Connection.reply (p.send command)).2 :=
  outcome_bind_of_ok h.outcome_reply_eq next

/-- A question without a text ends with the error. -/
theorem outcome_question_of_error {e : SolverError}
    (h : (outcome Connection.reply (p.send command)).1 = .error e) :
    (outcome (do modify (·.send command); next (← Connection.reply)) p).1 = .error e :=
  congrArg Prod.fst (outcome_bind_of_error (Prod.ext h rfl) next)

/-- A command with a request behind it asks, if what goes on with the text stops at a reported
error. -/
theorem asks_of_reported
    (h : ∀ reply message, Reply.Reports reply message → ∀ p,
      (outcome (next reply) p).1 = .error (.stopped message)) :
    Asks (do modify (·.send command); next (← Connection.reply)) command p where
  handed a ha := by
    cases hreply : (outcome Connection.reply (p.send command)).1 with
    | ok reply => exact ⟨reply, outcome_reply_eq_ok_iff.1 hreply⟩
    | error e =>
      rw [outcome_question_of_error hreply] at ha
      cases ha
  runs_out hout := by
    obtain ⟨text, htext⟩ := hout.exists_outcome_reply
    exact ⟨text, outcome_question_of_error htext⟩
  reported reply message hreply hmessage := by
    rw [outcome_question_of_hands hreply]
    exact h reply message hmessage _

end

/-! ### Single s-expressions -/

section

variable {α : Type} {look : Sexp → Except SolverError α}

/-- A question for an s-expression takes it off the text that it is handed. -/
theorem outcome_ask_bind_of_hands (h : (p.send command).Hands reply) :
    (outcome (ask command >>= fun item => ofResult (look item)) p).1 = Reply.single reply
      >>= look := by
  rw [outcome_bind, ask, outcome_question_of_hands h, outcome_ofResult]
  cases Reply.single reply with
  | error e => rfl
  | ok item => exact congrArg Prod.fst (outcome_ofResult (look item) _)

/-- A question for an s-expression asks. -/
theorem asks_ask_bind (command : Sexp) (p : Connection) :
    Asks (ask command >>= fun item => ofResult (look item)) command p := by
  rw [ask, bind_assoc]
  simp only [bind_assoc]
  refine asks_of_reported fun reply message hmessage p => ?_
  rw [hmessage.single_eq]
  rfl

/-- Something is made of a reply exactly if it is one s-expression that is no report and gives
it. -/
theorem single_bind_eq_ok_iff {a : α} :
    Reply.single reply >>= look = .ok a ↔
      ∃ item, (Sexp.parseMany reply = .ok [item] ∧ ∀ message, ¬ Reply.Reports reply message) ∧
        look item = .ok a := by
  rw [except_bind_eq_ok_iff]
  simp only [Reply.single_eq_ok_iff]

end

/-- A value is given if the reply is a list of the keyword and the value, and reports no error. -/
theorem outcome_info_eq_ok_iff {keyword : String}
    (h : (p.send (Command.getInfo keyword)).Hands reply) {value : Sexp} :
    (outcome (info keyword) p).1 = .ok value ↔
      Sexp.parseMany reply = .ok [.list [.symbol keyword, value]] ∧
        ∀ message, ¬ Reply.Reports reply message := by
  rw [info, outcome_ask_bind_of_hands h, single_bind_eq_ok_iff]
  simp only [Reply.info_eq_ok_iff, exists_eq_right]

/-- Interpolants are given if the reply is one list that reports no error. -/
theorem outcome_interpolants_eq_ok_iff {names : List String}
    (h : (p.send (Command.getInterpolants names)).Hands reply) {items : List Sexp} :
    (outcome (interpolants names) p).1 = .ok items ↔
      Sexp.parseMany reply = .ok [.list items] ∧ ∀ message, ¬ Reply.Reports reply message := by
  rw [interpolants, outcome_ask_bind_of_hands h, single_bind_eq_ok_iff]
  simp only [Reply.terms_eq_ok_iff, exists_eq_right]

/-! ### Checks -/

/-- The connection behind the reply to a check. -/
def checked (p : Connection) : Connection :=
  (outcome Connection.reply (p.send Command.checkSat)).2

/-- A check tells by the text that it is handed: `sat`, `unsat`, `unknown` with its reason, or an
error. -/
theorem outcome_checkSat_of_hands (h : (p.send Command.checkSat).Hands reply) :
    (outcome checkSat p).1 =
      if reply = "sat" then .ok .sat
      else if reply = "unsat" then .ok .unsat
      else if reply = "unknown" then
        (fun reason => .unknown reason.render) <$> (outcome (info ":reason-unknown") p.checked).1
      else .error (.stopped (Reply.errorText reply)) := by
  rw [checkSat, outcome_question_of_hands h, ← checked]
  by_cases hsat : reply = "sat"
  · rw [if_pos hsat, if_pos hsat]
    rfl
  rw [if_neg hsat, if_neg hsat]
  by_cases hunsat : reply = "unsat"
  · rw [if_pos hunsat, if_pos hunsat]
    rfl
  rw [if_neg hunsat, if_neg hunsat]
  -- `unknown` is followed by the question for its reason
  by_cases hunknown : reply = "unknown"
  · rw [if_pos hunknown, if_pos hunknown, outcome_bind]
    rcases outcome (info ":reason-unknown") p.checked with ⟨_ | reason, p'⟩ <;> rfl
  · rw [if_neg hunknown, if_neg hunknown]
    rfl

/-- The reason for giving up is the value of the next reply, which cannot be a report of an
error. -/
theorem outcome_reason_eq_ok_iff {value : Sexp} :
    (outcome (info ":reason-unknown") p).1 = .ok value ↔
      ∃ answer, (p.send (Command.getInfo ":reason-unknown")).Hands answer ∧
        Sexp.parseMany answer = .ok [.list [.symbol ":reason-unknown", value]] := by
  constructor
  · intro h
    obtain ⟨answer, hanswer⟩ := (asks_ask_bind (Command.getInfo ":reason-unknown") p).handed value h
    exact ⟨answer, hanswer, ((outcome_info_eq_ok_iff hanswer).1 h).1⟩
  · rintro ⟨answer, hanswer, hparse⟩
    refine (outcome_info_eq_ok_iff hanswer).2 ⟨hparse, fun message hmessage => ?_⟩
    rw [Reply.reports_iff hparse, Reply.errorMessage?_singleton] at hmessage
    simp [Reply.report, Sexp.app, Sexp.symbol] at hmessage

/-- What a check gives, for each text that it may be handed. -/
theorem outcome_checkSat_eq_ok_iff (h : (p.send Command.checkSat).Hands reply)
    {answer : SatAnswer} :
    (outcome checkSat p).1 = .ok answer ↔
      (reply = "sat" ∧ answer = .sat) ∨ (reply = "unsat" ∧ answer = .unsat) ∨
        reply = "unknown" ∧ ∃ value, (outcome (info ":reason-unknown") p.checked).1 = .ok value ∧
          answer = .unknown value.render := by
  rw [outcome_checkSat_of_hands h]
  split
  · next hsat => simp [hsat, eq_comm]
  split
  · next hunsat => simp [hunsat, eq_comm]
  split
  · next hunknown =>
    cases (outcome (info ":reason-unknown") p.checked).1 <;> simp [hunknown, eq_comm]
  · simp [*]

/-- A check asks. -/
theorem asks_checkSat (p : Connection) : Asks checkSat Command.checkSat p := by
  refine asks_of_reported fun reply message hmessage p => ?_
  have hsat : Sexp.parseMany "sat" = .ok [.symbol "sat"] := by decide +kernel
  have hunsat : Sexp.parseMany "unsat" = .ok [.symbol "unsat"] := by decide +kernel
  have hunknown : Sexp.parseMany "unknown" = .ok [.symbol "unknown"] := by decide +kernel
  rw [if_neg (hmessage.ne_of_parseMany hsat), if_neg (hmessage.ne_of_parseMany hunsat),
    if_neg (hmessage.ne_of_parseMany hunknown), hmessage.errorText_eq]
  rfl

/-- **No error is taken for an answer, and no answer is invented**, whatever the process does and
whatever was sent to it before. A check is answered by the very texts `sat` and `unsat`, and it
gives up only for a reason that is the value of the next reply; the other questions are answered by
one s-expression of the right shape. The first error that a text reports is what the question gives,
whatever stands around it. -/
theorem answers_exactly (p : Connection) :
    (Asks checkSat Command.checkSat p ∧
      (∀ keyword, Asks (info keyword) (Command.getInfo keyword) p) ∧
      ∀ names, Asks (interpolants names) (Command.getInterpolants names) p) ∧
    (∀ reply, (p.send Command.checkSat).Hands reply →
      ((outcome checkSat p).1 = .ok .sat ↔ reply = "sat") ∧
      ((outcome checkSat p).1 = .ok .unsat ↔ reply = "unsat") ∧
      (∀ reason, (outcome checkSat p).1 = .ok (.unknown reason) ↔ reply = "unknown" ∧
        ∃ answer value, (p.checked.send (Command.getInfo ":reason-unknown")).Hands answer ∧
          Sexp.parseMany answer = .ok [.list [.symbol ":reason-unknown", value]] ∧
          reason = value.render) ∧
      (reply = "unknown" → ∀ e, (outcome (info ":reason-unknown") p.checked).1 = .error e →
        (outcome checkSat p).1 = .error e)) ∧
    (∀ keyword reply, (p.send (Command.getInfo keyword)).Hands reply →
      ∀ value, (outcome (info keyword) p).1 = .ok value ↔
        Sexp.parseMany reply = .ok [.list [.symbol keyword, value]] ∧
          ∀ message, ¬ Reply.Reports reply message) ∧
    ∀ names reply, (p.send (Command.getInterpolants names)).Hands reply →
      ∀ items, (outcome (interpolants names) p).1 = .ok items ↔
        Sexp.parseMany reply = .ok [.list items] ∧ ∀ message, ¬ Reply.Reports reply message := by
  have hinfo : ∀ keyword, Asks (info keyword) (Command.getInfo keyword) p := fun keyword =>
    asks_ask_bind (Command.getInfo keyword) p
  have hinterpolants : ∀ names, Asks (interpolants names) (Command.getInterpolants names) p :=
    fun names => asks_ask_bind (Command.getInterpolants names) p
  refine ⟨⟨asks_checkSat p, hinfo, hinterpolants⟩, fun reply hreply => ?_,
    fun keyword reply hreply value => outcome_info_eq_ok_iff hreply,
    fun names reply hreply items => outcome_interpolants_eq_ok_iff hreply⟩
  -- the reply to a check is compared with three texts, one after the other
  have hcheck := fun answer => @outcome_checkSat_eq_ok_iff p reply hreply answer
  refine ⟨?_, ?_, fun reason => ?_, ?_⟩
  · simp [hcheck]
  · simp [hcheck]
  · simp only [hcheck, outcome_reason_eq_ok_iff, reduceCtorEq, and_false, false_or,
      SatAnswer.unknown.injEq]
    constructor
    · rintro ⟨hunknown, value, ⟨answer, hanswer, hparse⟩, hreason⟩
      exact ⟨hunknown, answer, value, hanswer, hparse, hreason⟩
    · rintro ⟨hunknown, answer, value, hanswer, hparse, hreason⟩
      exact ⟨hunknown, value, ⟨answer, hanswer, hparse⟩, hreason⟩
  · rintro rfl e he
    rw [outcome_checkSat_of_hands hreply, if_neg (by decide), if_neg (by decide), if_pos rfl, he]
    rfl

/-- A check that is answered by an error with an answer behind it. -/
theorem answers_exactly_reported :
    let text := "(error \"undeclared symbol p\")\nsat"
    let p := unlaunched { program := "z" } "z" [{ text := text }] ⟨false, []⟩
    (p.send Command.checkSat).Hands text ∧ Reply.Reports text "undeclared symbol p" ∧
      (outcome checkSat p).1 = .error (.stopped "undeclared symbol p") ∧
      (outcome checkSat p).1 ≠ .ok .sat := by
  intro text p
  have hparse : Sexp.parseMany text
      = .ok [Reply.report "undeclared symbol p", .symbol "sat"] := by decide +kernel
  have hhands : (p.send Command.checkSat).Hands text :=
    outcome_reply_eq_ok_iff.1 (by decide +kernel)
  have hreports : Reply.Reports text "undeclared symbol p" :=
    ⟨[], [.symbol "sat"], hparse, nofun⟩
  obtain ⟨⟨hcheck, -⟩, hverdict, -⟩ := answers_exactly p
  refine ⟨hhands, hreports, hcheck.reported _ _ hhands hreports, ?_⟩
  exact (hverdict text hhands).1.not.2 (by decide)

end Connection

end Interpolants
