import Interpolants.Proofs.Sexp.Closed
import Interpolants.Proofs.Solver.Records

/-!
# Interpolants — annotated transcripts

A comment of one line that stands between closed lines is read as a comment, so a file has the
commands that it has without it (`Transcript.Annotates.commandsRead_eq`). The process does not see
comments: a session without them goes through the same exchanges, comments aside, with connections
that differ in their transcripts alone (`Connection.Annotates`). A comment of more lines is not read
as one.
-/

namespace Interpolants

open Text

/-! ## Files -/

namespace Transcript

open Sexp

/-- The s-expressions of a file that are no comments, if the file is read. -/
def commandsRead (file : String) : Option (List Sexp) :=
  (parseMany file).toOption.map fun items => items.filter fun t => !t.isComment

/-- The line of an entry with its end. -/
def fullLine (entry : Sexp) : List Char :=
  line entry ++ ['\n']

/-- A command whose symbols are enclosed, and a comment of one line, make a closed line. -/
theorem closed_fullLine {t : Sexp} (h : t.Composed Enclosed OneLine) : Closed (fullLine t) := by
  have hend : Closed ['\n'] := .plain (by decide) .nil
  by_cases hcomment : ∃ text, t = .comment text
  · obtain ⟨text, rfl⟩ := hcomment
    have htext : OneLine text := by
      cases h with
      | comment h => exact h
    by_cases hempty : text = ""
    · rw [fullLine, line, if_pos hempty]
      exact hend
    · rw [fullLine, line_comment hempty]
      exact .comment (by simpa [OneLine] using htext : '\n' ∉ ';' :: ' ' :: text.toList) .nil
  · have hne : ∀ text, t ≠ .comment text := fun text heq => hcomment ⟨text, heq⟩
    rw [fullLine, line_of_ne hne]
    exact (closed_chars h hne).append hend

/-- Some entries are others with comments of one line between them. The lines of the others are
closed. -/
inductive Annotates : List Sexp → List Sexp → Prop where
  | nil : Annotates [] []
  | entry {e : Sexp} {entries bare : List Sexp} (h : Closed (fullLine e))
    (hmore : Annotates entries bare) : Annotates (e :: entries) (e :: bare)
  | comment {text : String} {entries bare : List Sexp} (h : OneLine text)
    (hmore : Annotates entries bare) : Annotates (.comment text :: entries) bare

/-- Two texts of which the same commands are read, if they are read. -/
structure SameCommands (cs cs' : List Char) : Prop where
  left_eq_nil_iff : (readAll cs).2 = [] ↔ (readAll cs').2 = []
  commands_eq : (readAll cs).2 = [] →
    ((readAll cs).1.filter fun t => !t.isComment) = (readAll cs').1.filter fun t => !t.isComment

/-- Files of texts with the same commands are read as the same commands. -/
theorem SameCommands.commandsRead_eq {file file' : String}
    (h : SameCommands file.toList file'.toList) : commandsRead file = commandsRead file' := by
  rw [commandsRead, commandsRead, toOption_parseMany, toOption_parseMany]
  by_cases hend : (readAll file.toList).2 = []
  · rw [if_pos hend, if_pos (h.left_eq_nil_iff.1 hend), Option.map_some, Option.map_some,
      h.commands_eq hend]
  · rw [if_neg hend, if_neg (h.left_eq_nil_iff.not.1 hend)]

variable {entries bare : List Sexp}

/-- A full line ends whatever is written on it. -/
theorem parted_fullLine (e : Sexp) (rest : List Char) : Parted (fullLine e) rest := by
  intro c hc hchar
  rw [fullLine, List.getLast?_concat, Option.mem_def, Option.some.injEq] at hc
  subst hc
  exact absurd hchar (by decide)

/-- One more closed line in front of both texts is read as one more command. -/
theorem SameCommands.fullLine {cs cs' : List Char} (h : SameCommands cs cs') {e : Sexp}
    (he : Closed (fullLine e)) :
    SameCommands (Transcript.fullLine e ++ cs) (Transcript.fullLine e ++ cs') := by
  rcases he.settled with ⟨items, hitems⟩ | hstuck
  · have hread := fun rest => hitems rest (parted_fullLine e rest)
    refine ⟨?_, fun hend => ?_⟩
    · rw [hread, hread]
      exact h.left_eq_nil_iff
    · rw [hread] at hend
      rw [hread, hread, List.filter_append, List.filter_append, h.commands_eq hend]
  · have hne : ∀ rest, (readAll (Transcript.fullLine e ++ rest)).2 ≠ [] := by
      intro rest
      obtain ⟨c, more, hleft, -⟩ := hstuck rest (parted_fullLine e rest)
      rw [hleft]
      exact List.cons_ne_nil c more
    exact ⟨iff_of_false (hne cs) (hne cs'), fun hend => absurd hend (hne cs)⟩

/-- The line of a comment is read as a comment or not at all. -/
theorem SameCommands.comment {cs cs' : List Char} (h : SameCommands cs cs') {text : String}
    (htext : OneLine text) : SameCommands (Transcript.fullLine (.comment text) ++ cs) cs' := by
  by_cases hempty : text = ""
  · have hline : Transcript.fullLine (.comment text) = ['\n'] := by
      rw [hempty]
      rfl
    have hread : readAll (['\n'] ++ cs) = readAll cs :=
      readAll_append_of_spaces (by simp [isSpace]) cs
    exact ⟨by rw [hline, hread]; exact h.left_eq_nil_iff, by rw [hline, hread]; exact h.commands_eq⟩
  · have hfront : front? ((Transcript.fullLine (.comment text) ++ cs).dropWhile isSpace)
        = some (.comment (String.ofList (';' :: ' ' :: text.toList)), cs) := by
      rw [Transcript.fullLine, List.append_assoc]
      exact @value_line_comment [] (List.forall_mem_nil _) text htext hempty _ cs
    have hread := readAll_of_some hfront
    exact ⟨by rw [hread]; exact h.left_eq_nil_iff, by rw [hread]; exact h.commands_eq⟩

/-- **Comments of one line change nothing** in what is read of closed lines. -/
theorem Annotates.sameCommands (h : Annotates entries bare) :
    SameCommands (lines entries) (lines bare) := by
  induction h with
  | nil => exact ⟨Iff.rfl, fun _ => rfl⟩
  | entry h _ ih => exact ih.fullLine h
  | comment h _ ih => exact ih.comment h

/-- Annotated entries behind annotated entries are annotated. -/
theorem Annotates.append {more bareMore : List Sexp} (h : Annotates entries bare)
    (hmore : Annotates more bareMore) : Annotates (entries ++ more) (bare ++ bareMore) := by
  induction h with
  | nil => exact hmore
  | entry h _ ih => exact .entry h ih
  | comment h _ ih => exact .comment h ih

/-- The files of annotated entries hold the same commands as those of the entries without
comments. -/
theorem Annotates.commandsRead_eq (h : Annotates entries bare) (hne : bare ≠ []) :
    commandsRead (fileText ⟨entries⟩) = commandsRead (fileText ⟨bare⟩) := by
  have hne' : entries ≠ [] := by
    rintro rfl
    cases h
    exact hne rfl
  refine SameCommands.commandsRead_eq ?_
  rw [fileText, fileText, String.toList_ofList, String.toList_ofList, unlines_eq_lines hne,
    unlines_eq_lines hne']
  exact h.sameCommands

end Transcript

/-! ## Connections -/

namespace Connection

/-- Two recorded connections that differ in their transcripts alone, where one has comments in its
own. -/
structure Annotates (p p₀ : Connection) : Prop where
  same : p₀ = { p with transcript := p₀.transcript, folder := p₀.folder }
  creatable_eq : p₀.folder.creatable = p.folder.creatable
  transcripts : ∃ t t₀, p.transcript = some t ∧ p₀.transcript = some t₀ ∧
    Transcript.Annotates t.entries t₀.entries ∧ t₀.entries ≠ []

namespace Annotates

variable {p p₀ : Connection}

/-- What the process does makes no difference to two transcripts. -/
theorem withChild (h : p.Annotates p₀) (child : Child) :
    Annotates { p with child } { p₀ with child } where
  same := by rw [h.same]
  creatable_eq := h.creatable_eq
  transcripts := h.transcripts

/-- A comment of one line is one more annotation. -/
theorem comment (h : p.Annotates p₀) {text : String} (htext : Sexp.OneLine text) :
    Annotates (p.comment text) p₀ where
  same := h.same
  creatable_eq := h.creatable_eq
  transcripts := by
    obtain ⟨t, t₀, ht, ht₀, hentries, hne⟩ := h.transcripts
    have hcomments : Transcript.Annotates [.comment "", .comment text] [] :=
      .comment (by decide) (.comment htext .nil)
    have hadd := hentries.append hcomments
    rw [List.append_nil] at hadd
    refine ⟨(t.add (.comment "")).add (.comment text), t₀, ?_, ht₀, ?_, hne⟩
    · simp [Connection.comment, record, ht]
    · simpa [Transcript.add] using hadd

/-- A command with a closed line is added to both transcripts. -/
theorem send (h : p.Annotates p₀) {command : Sexp}
    (hcommand : Sexp.Closed (Transcript.fullLine command)) :
    Annotates (p.send command) (p₀.send command) where
  same := SameButRecords.send h.same command
  creatable_eq := by
    rw [folder_send, folder_send, h.creatable_eq]
  transcripts := by
    obtain ⟨t, t₀, ht, ht₀, hentries, hne⟩ := h.transcripts
    refine ⟨t.add command, t₀.add command, ?_, ?_, hentries.append (.entry hcommand .nil),
      by simp [Transcript.add]⟩
    · rw [transcript_send, ht]
      rfl
    · rw [transcript_send, ht₀]
      rfl

/-- A transcript is saved if the annotated one is. -/
theorem save (h : p.Annotates p₀) :
    p₀.save.1 = p.save.1 ∧ Annotates p.save.2 p₀.save.2 := by
  obtain ⟨t, t₀, ht, ht₀, hentries, hne⟩ := h.transcripts
  unfold Connection.save
  rw [ht, ht₀, Option.bind_some, Option.bind_some]
  cases hsave : p.folder.save? t with
  | none =>
    -- whether saving works depends on the folder alone
    have hsave₀ : p₀.folder.save? t₀ = none := by
      rw [Folder.save?_eq_none_iff] at hsave ⊢
      rw [h.creatable_eq, hsave]
    rw [hsave₀]
    exact ⟨rfl, h⟩
  | some folder =>
    cases hsave₀ : p₀.folder.save? t₀ with
    | none =>
      rw [Folder.save?_eq_none_iff, h.creatable_eq, ← Folder.save?_eq_none_iff (t := t),
        hsave] at hsave₀
      cases hsave₀
    | some folder₀ =>
      refine ⟨rfl, ⟨by rw [h.same], ?_, t, t₀, rfl, rfl, hentries, hne⟩⟩
      show folder₀.creatable = folder.creatable
      rw [Folder.creatable_of_save? hsave, Folder.creatable_of_save? hsave₀, h.creatable_eq]

/-- The same reply is handed over on both connections. -/
theorem reply (h : p.Annotates p₀) :
    (outcome Connection.reply p₀).1 = (outcome Connection.reply p).1 ∧
      Annotates (outcome Connection.reply p).2 (outcome Connection.reply p₀).2 := by
  obtain ⟨hreply, hsame⟩ := SameButRecords.reply h.same
  refine ⟨hreply, hsame, ?_, ?_⟩
  · rw [folder_reply, folder_reply, h.creatable_eq]
  · rw [transcript_reply, transcript_reply]
    exact h.transcripts

end Annotates

end Connection

/-! ## Passages -/

/-- Whether an exchange only annotates. -/
def Exchange.isNote : Exchange → Bool
  | .noted _ => true
  | _ => false

/-- An exchange that adds a closed line to the transcript, or a comment of one line. -/
def Exchange.WellLined : Exchange → Prop
  | .told command => Sexp.Closed (Transcript.fullLine command)
  | .noted text => Sexp.OneLine text
  | .saved _ | .handed _ => True

/-- Exchanges add closed lines if the symbols of their commands are enclosed and their comments are
of one line. -/
theorem Exchange.wellLined_of_composed {log : List Exchange}
    (hcommands : ∀ command ∈ commands log, command.Composed Sexp.Enclosed Sexp.OneLine)
    (hcomments : ∀ text, noted text ∈ log → Sexp.OneLine text) :
    ∀ exchange ∈ log, exchange.WellLined := by
  intro exchange hexchange
  cases exchange with
  | told command =>
    exact Transcript.closed_fullLine (hcommands command (List.mem_filterMap.2 ⟨_, hexchange, rfl⟩))
  | noted text => exact hcomments text hexchange
  | saved | handed => trivial

/-- Two passages of one exchange, of which one has comments in the transcripts. -/
structure Passage.Annotates (q q₀ : Passage) : Prop where
  exchange_eq : q₀.exchange = q.exchange
  before : q.before.Annotates q₀.before
  behind : q.behind.Annotates q₀.behind
  passes : q.before.Passes q.exchange q.behind
  bare_passes : q₀.before.Passes q₀.exchange q₀.behind

/-- Passages with and without comments are of the same exchanges. -/
theorem Passage.map_exchange_eq {passages passages₀ : List Passage}
    (h : List.Forall₂ Passage.Annotates passages passages₀) :
    passages₀.map Passage.exchange = passages.map Passage.exchange := by
  induction h with
  | nil => rfl
  | cons hq _ ih => rw [List.map_cons, List.map_cons, hq.exchange_eq, ih]

/-- Two passages of one exchange, in which the process does the same. Where a transcript is saved,
the two files hold the same commands. -/
structure Passage.ReplaysLike (q q₀ : Passage) : Prop where
  exchange_eq : q₀.exchange = q.exchange
  before_child_eq : q₀.before.child = q.before.child
  behind_child_eq : q₀.behind.child = q.behind.child
  saved : q.exchange = .saved true → ∃ t t₀,
    q.before.transcript = some t ∧ t.fileText ∈ q.behind.folder.files ∧
    q₀.before.transcript = some t₀ ∧ t₀.fileText ∈ q₀.behind.folder.files ∧
    Transcript.commandsRead t.fileText = Transcript.commandsRead t₀.fileText

/-- With or without comments, the same is read of what is saved. -/
theorem Passage.Annotates.replaysLike {q q₀ : Passage} (h : q.Annotates q₀) : q.ReplaysLike q₀ where
  exchange_eq := h.exchange_eq
  before_child_eq := by rw [h.before.same]
  behind_child_eq := by rw [h.behind.same]
  saved hsaved := by
    obtain ⟨t, t₀, ht, ht₀, hentries, hne⟩ := h.before.transcripts
    obtain ⟨t', ht', hfolder⟩ := (hsaved ▸ h.passes).saved_eq
    obtain ⟨t₀', ht₀', hfolder₀⟩ := ((h.exchange_eq.trans hsaved) ▸ h.bare_passes).saved_eq
    obtain rfl := Option.some.inj (ht.symm.trans ht')
    obtain rfl := Option.some.inj (ht₀.symm.trans ht₀')
    exact ⟨t, t₀, ht, Folder.mem_of_save? hfolder, ht₀, Folder.mem_of_save? hfolder₀,
      hentries.commandsRead_eq hne⟩

namespace Connection

variable {p p₀ p₁ p' : Connection} {exchange : Exchange} {passages : List Passage}

/-- An exchange that is no annotation passes on the bare connection as on the annotated one. -/
theorem Passes.exists_bare (h : Passes p exchange p₁) (hp : p.Annotates p₀)
    (hlined : exchange.WellLined) (hnote : exchange.isNote = false) :
    ∃ p₀₁, Passes p₀ exchange p₀₁ ∧ p₁.Annotates p₀₁ := by
  cases h with
  | told command => exact ⟨_, .told command, hp.send hlined⟩
  | noted text => cases hnote
  | saved =>
    obtain ⟨hsaved, hbehind⟩ := hp.save
    exact ⟨_, hsaved ▸ .saved, hbehind⟩
  | handed =>
    obtain ⟨hreply, hbehind⟩ := hp.reply
    exact ⟨_, hreply ▸ .handed, hbehind⟩

/-- **Comments can be left out of a session.** The process does the same, and all other exchanges
are the same. -/
theorem Carries.exists_bare (h : Carries p passages p') (hp : p.Annotates p₀)
    (hlined : ∀ q ∈ passages, q.exchange.WellLined) :
    ∃ passages₀ p₀', Carries p₀ passages₀ p₀' ∧
      List.Forall₂ Passage.Annotates (passages.filter fun q => !q.exchange.isNote) passages₀ := by
  induction h generalizing p₀ with
  | nil p child => exact ⟨[], { p₀ with child }, .nil p₀ child, .nil⟩
  | @cons p p₁ p' child exchange passages h hmore ih =>
    obtain ⟨hfirst, hrest⟩ := List.forall_mem_cons.1 hlined
    have hbefore := hp.withChild child
    cases hnote : exchange.isNote with
    | true =>
      -- an annotation leaves the bare connection where it is
      obtain ⟨text, rfl⟩ : ∃ text, exchange = .noted text := by
        cases exchange <;> first | exact ⟨_, rfl⟩ | cases hnote
      cases h with
      | noted =>
        obtain ⟨passages₀, p₀', hcarries, hall⟩ := ih (hbefore.comment hfirst) hrest
        exact ⟨passages₀, p₀', hcarries.of_child, by simpa [Exchange.isNote] using hall⟩
    | false =>
      obtain ⟨p₀₁, hpasses, hbehind⟩ := h.exists_bare hbefore hfirst hnote
      obtain ⟨passages₀, p₀', hcarries, hall⟩ := ih hbehind hrest
      refine ⟨⟨_, exchange, p₀₁⟩ :: passages₀, p₀', .cons hpasses hcarries, ?_⟩
      rw [List.filter_cons_of_pos (by simp [hnote])]
      exact .cons ⟨rfl, hbefore, hbehind, h, hpasses⟩ hall

end Connection

/-! ## Sessions -/

/-- A dialogue without annotations. -/
def Dialogue.Unannotated {α : Type} : Dialogue α → Prop
  | .done _ => True
  | .send _ next => next.Unannotated
  | .comment _ _ => False
  | .save next => ∀ written, (next written).Unannotated
  | .request next => ∀ text, (next text).Unannotated

namespace Dialogue

variable {α β : Type} {d : Dialogue α} {exchanges : List Exchange} {result : Except SolverError α}

/-- Nothing is noted in a dialogue without annotations. -/
theorem Follows.isNote_eq_false (h : d.Follows exchanges result) (hd : d.Unannotated) :
    ∀ exchange ∈ exchanges, exchange.isNote = false := by
  induction h with
  | done => nofun
  | send _ ih => exact List.forall_mem_cons.2 ⟨rfl, ih hd⟩
  | comment => exact hd.elim
  | save _ ih => exact List.forall_mem_cons.2 ⟨rfl, ih (hd _)⟩
  | request _ ih => exact List.forall_mem_cons.2 ⟨rfl, ih (hd _)⟩
  | unanswered => exact List.forall_mem_cons.2 ⟨rfl, nofun⟩

/-- Going on with a result annotates nothing. -/
theorem Unannotated.after {next : β → Dialogue α} (h : ∀ b, (next b).Unannotated)
    (result : Except SolverError β) : (Dialogue.after result next).Unannotated := by
  cases result with
  | ok b => exact h b
  | error e => trivial

/-- A question for a value annotates nothing. -/
theorem Unannotated.info {next : Sexp → Dialogue α} (h : ∀ value, (next value).Unannotated)
    (keyword : String) : (Dialogue.info keyword next).Unannotated :=
  fun text => .after (fun reply => .after h (Reply.info keyword reply)) (Reply.single text)

end Dialogue

namespace Operation

/-- Whether an operation only annotates. -/
def isComment : Operation → Bool
  | comment _ => true
  | _ => false

/-- Only comments annotate. -/
theorem unannotated_dialogue {op : Operation} (h : op.isComment = false) :
    op.dialogue.Unannotated := by
  cases op with
  | comment => cases h
  | send => trivial
  | save => exact fun _ => trivial
  | checkSat =>
    -- the dialogue goes on behind `unknown` only, and saves then
    have hreason : ∀ reason : Sexp,
        (Dialogue.save fun _ => .done (.ok (.verdict (.unknown reason.render))) :
        Dialogue Answer).Unannotated := fun _ _ => trivial
    intro text
    dsimp only
    split
    · trivial
    · split
      · trivial
      · split
        · exact .info hreason ":reason-unknown"
        · trivial
  | info keyword =>
    have hvalue : ∀ value : Sexp, (.done (.ok (.value value)) : Dialogue Answer).Unannotated :=
      fun _ => trivial
    exact .info hvalue keyword
  | interpolants names =>
    have hterms : ∀ terms : List Sexp, (.done (.ok (.terms terms)) : Dialogue Answer).Unannotated :=
      fun _ => trivial
    exact fun text => .after (fun reply => .after hterms (Reply.terms reply)) (Reply.single text)

end Operation

section

variable {p p' : Connection} {turns : List Turn} {passages : List Passage}

/-- Leaving out the comments among some operations leaves out the annotations among the
exchanges. -/
theorem Turn.flatMap_exchanges_filter
    (h : ∀ turn ∈ turns, turn.operation.dialogue.Follows turn.exchanges turn.result) :
    (turns.filter fun turn => !turn.operation.isComment).flatMap Turn.exchanges
      = (turns.flatMap Turn.exchanges).filter fun exchange => !exchange.isNote := by
  induction turns with
  | nil => rfl
  | cons turn turns ih =>
    obtain ⟨hturn, hmore⟩ := List.forall_mem_cons.1 h
    rw [List.flatMap_cons, List.filter_append, ← ih hmore]
    obtain ⟨op, result, exchanges⟩ := turn
    cases hop : op.isComment with
    | true =>
      cases op with
      | comment text =>
        cases hturn with
        | comment hdone =>
          cases hdone
          rfl
      | send | save | checkSat | info | interpolants => cases hop
    | false =>
      -- an operation that is no comment notes nothing, so nothing is filtered out
      have hnotes := hturn.isNote_eq_false (Operation.unannotated_dialogue hop)
      have hkept : (exchanges.filter fun exchange => !exchange.isNote) = exchanges :=
        List.filter_eq_self.2 fun exchange hexchange => by simp [hnotes exchange hexchange]
      rw [hkept, List.filter_cons_of_pos (by simp [hop]), List.flatMap_cons]

/-- Without the turns that only annotate, a session has its exchanges without annotations. -/
theorem Connection.exchanges_filter (p : Connection)
    (h : ∀ turn ∈ turns, turn.operation.dialogue.Follows turn.exchanges turn.result) :
    p.exchanges (turns.filter fun turn => !turn.operation.isComment)
      = (p.exchanges turns).filter fun exchange => !exchange.isNote := by
  have hopening : (p.opening.filter fun exchange => !exchange.isNote) = p.opening := by
    refine List.filter_eq_self.2 fun exchange hexchange => ?_
    obtain ⟨option, -, rfl⟩ := List.mem_map.1 hexchange
    rfl
  rw [exchanges, exchanges, List.filter_append, hopening, Turn.flatMap_exchanges_filter h]

/-- **Comments of one line never change what a transcript replays.** Launch a recorded connection
and hold any operations on it, while its process does whatever it likes at any time. The session
without the comments among them goes through the same exchanges, in which the process does the same,
and where the transcript is saved, the same commands are read from the two files, or neither is
read. All comments have to be of one line, and the lines of the commands and of the command line
must be closed. -/
theorem annotations_replay_nothing (h : Recounts p turns passages p')
    (hline : Sexp.Closed (Transcript.fullLine (.comment p.invocation.commandLine)))
    (hlined : ∀ exchange ∈ p.exchanges turns, exchange.WellLined) :
    ∃ passages₀ p₀', Recounts p (turns.filter fun turn => !turn.operation.isComment) passages₀ p₀' ∧
      List.Forall₂ Passage.ReplaysLike (passages.filter fun q => !q.exchange.isNote) passages₀ := by
  have hstart : Connection.Annotates { p with transcript := p.firstTranscript true }
      { p with transcript := p.firstTranscript true } :=
    ⟨rfl, rfl, _, _, rfl, rfl, .entry hline .nil, List.cons_ne_nil _ _⟩
  have hpassages : ∀ q ∈ passages, q.exchange.WellLined := fun q hq =>
    hlined q.exchange (h.exchanges_eq ▸ List.mem_map_of_mem hq)
  obtain ⟨passages₀, p₀', hcarries, hall⟩ := h.carries.exists_bare hstart hpassages
  refine ⟨passages₀, p₀',
    ⟨h.launches, fun turn hturn => h.follows turn (List.mem_filter.1 hturn).1, ?_,
    hcarries⟩, hall.imp fun _ _ hq => hq.replaysLike⟩
  rw [Passage.map_exchange_eq hall, p.exchanges_filter h.follows, ← h.exchanges_eq, List.filter_map]
  rfl

/-- A formula is asserted behind a comment, and the answer is unknown, so that the transcript is
saved. -/
theorem annotations_replay_nothing_unknown :
    let p := Connection.unlaunched { program := "z3" } "z3"
      [{ text := "unknown" }, { text := "(:reason-unknown incomplete)" }] ⟨true, []⟩
    let run := Connection.converse [.send (Command.declareFun "x y" "Bool"), .comment "phi_1: x y",
      .send (Command.assertNamed (.symbol "x y") "phi_1"), .checkSat]
      (outcome (Connection.launch true) p).2
    let passages := Connection.quietPassages { p with transcript := p.firstTranscript true }
      (p.exchanges run.1)
    (∃ q ∈ passages, q.exchange = .noted "phi_1: x y") ∧
    (∃ q ∈ passages, q.exchange = .saved true) ∧
      ∃ passages₀ p₀', Recounts p (run.1.filter fun turn => !turn.operation.isComment)
        passages₀ p₀' ∧
        List.Forall₂ Passage.ReplaysLike (passages.filter fun q => !q.exchange.isNote)
          passages₀ := by
  intro p run passages
  have hrecounts : Recounts p run.1 passages run.2 := recounts_converse (by decide) _
  have hexchanges : p.exchanges run.1
      = [.told (Command.declareFun "x y" "Bool"), .noted "phi_1: x y",
      .told (Command.assertNamed (.symbol "x y") "phi_1"), .told Command.checkSat,
      .handed (.ok "unknown"),
      .told (Command.getInfo ":reason-unknown"), .handed (.ok "(:reason-unknown incomplete)"),
      .saved true] := by decide +kernel
  have hcomments : ∀ text, Exchange.noted text ∈ p.exchanges run.1 → Sexp.OneLine text := by
    intro text htext
    rw [hexchanges] at htext
    obtain rfl : text = "phi_1: x y" := by simpa using htext
    decide
  have hpassages : passages.map Passage.exchange = p.exchanges run.1 :=
    Connection.map_exchange_quietPassages _ _
  -- the passages are those of the exchanges
  have hmem : ∀ exchange ∈ p.exchanges run.1, ∃ q ∈ passages, q.exchange = exchange := by
    intro exchange hexchange
    rw [← hpassages] at hexchange
    exact List.mem_map.1 hexchange
  refine ⟨hmem _ (by rw [hexchanges]; simp), hmem _ (by rw [hexchanges]; simp), ?_⟩
  exact annotations_replay_nothing hrecounts
    (Transcript.closed_fullLine (.comment (by decide)))
    (Exchange.wellLined_of_composed (by rw [hexchanges]; decide +kernel) hcomments)

/-- A comment of two lines is read as a command on its second line. -/
theorem annotation_replayed :
    let p := Connection.unlaunched { program := "z3" } "z3" [] ⟨true, []⟩
    let launched := (outcome (Connection.launch true) p).2
    let saved :=
      fun ops => (Connection.converse ops launched).2.folder.files.map Transcript.commandsRead
    saved [.comment "phi_1: p\n(exit)", .send (Command.setLogic "QF_LIA"), .save]
        = [some [.app "exit" [], Command.setLogic "QF_LIA"]] ∧
      saved [.send (Command.setLogic "QF_LIA"), .save] = [some [Command.setLogic "QF_LIA"]] := by
  decide +kernel

end

end Interpolants
