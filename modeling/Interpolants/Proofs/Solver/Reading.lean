import Interpolants.Proofs.Text.Lines
import Interpolants.Solver.Connection

/-!
# Interpolants — reading replies from a stream

A request reads a stream of lines up to the next line that ends a reading: a marker, or a line that
is no UTF-8. A stream therefore falls into the readings that one request after the other is handed,
whenever its last line ends one (`readings_append`). A reply with a marker behind it is a single
reading if it is text, and otherwise one for each of its lines that is not, in front of the last
(`ScriptedReply.Framed`).
-/

namespace Interpolants

open Text

namespace Connection

/-- The last line of a stream, if there is any, ends a reading. -/
def Ended (lines : List (List UInt8)) : Prop :=
  ∀ line ∈ lines.getLast?, endsReading line = true

/-- What requests are handed from a stream, one after the other. -/
def readings : List (List Char) → List (List UInt8) → List (Except SolverError String)
  | _, [] => []
  | kept, line :: rest =>
    match lineText? line with
    | none => .error (.io .invalidUtf8) :: readings [] rest
    | some text =>
      if Reply.isMarker text then .ok (String.ofList (trimEnd (unlines kept))) :: readings [] rest
      else readings (if Reply.isAcknowledgement text then kept else kept ++ [text]) rest

theorem ended_nil : Ended [] :=
  nofun

/-- A stream that is ended is empty or has a last line at which a reading ends. -/
theorem Ended.eq_nil_or_concat {lines : List (List UInt8)} (h : Ended lines) :
    lines = [] ∨ ∃ body last, lines = body ++ [last] ∧ endsReading last = true := by
  rcases List.eq_nil_or_concat lines with rfl | ⟨body, last, rfl⟩
  · exact .inl rfl
  · refine .inr ⟨body, last, List.concat_eq_append, h last ?_⟩
    simp

/-- What is left of an ended stream is ended. -/
theorem Ended.of_suffix {lines rest : List (List UInt8)} (h : Ended lines)
    (hrest : rest <:+ lines) :
    Ended rest := by
  obtain ⟨before, rfl⟩ := hrest
  intro line hline
  refine h line ?_
  rw [Option.mem_def] at hline ⊢
  rw [List.getLast?_append, hline]
  rfl

/-- An ended stream behind an ended one is ended. -/
theorem Ended.append {lines more : List (List UInt8)} (h : Ended lines) (hmore : Ended more) :
    Ended (lines ++ more) := by
  intro line hline
  rw [Option.mem_def, List.getLast?_append] at hline
  cases hlast : more.getLast? with
  | none =>
    rw [hlast] at hline
    exact h line hline
  | some last =>
    rw [hlast] at hline
    exact hmore line (hlast.trans hline)

/-- A line that ends a reading ends it whatever was read before. -/
theorem exists_readings_of_endsReading {line : List UInt8} (h : endsReading line = true)
    (kept : List (List Char)) :
    ∃ reading, ∀ rest, readings kept (line :: rest) = reading :: readings [] rest := by
  unfold endsReading at h
  cases htext : lineText? line with
  | none => exact ⟨.error (.io .invalidUtf8), fun rest => by rw [readings, htext]⟩
  | some text =>
    rw [htext] at h
    refine ⟨.ok (String.ofList (trimEnd (unlines kept))), fun rest => ?_⟩
    rw [readings, htext]
    exact if_pos h

/-- Whatever comes behind the end of a reading is no part of it. -/
theorem readings_concat_append {last : List UInt8} (h : endsReading last = true)
    (body : List (List UInt8)) (kept : List (List Char)) (more : List (List UInt8)) :
    readings kept (body ++ [last] ++ more) = readings kept (body ++ [last])
      ++ readings [] more := by
  induction body generalizing kept with
  | nil =>
    obtain ⟨reading, hreading⟩ := exists_readings_of_endsReading h kept
    rw [List.nil_append, List.singleton_append, hreading, hreading]
    rfl
  | cons line body ih =>
    simp only [List.cons_append, readings]
    cases lineText? line with
    | none => exact congrArg (_ :: ·) (ih [])
    | some text =>
      simp only
      split
      · exact congrArg (_ :: ·) (ih [])
      · exact ih _

/-- **A stream falls into readings.** -/
theorem readings_append {lines : List (List UInt8)} (h : Ended lines) (more : List (List UInt8)) :
    readings [] (lines ++ more) = readings [] lines ++ readings [] more := by
  rcases h.eq_nil_or_concat with rfl | ⟨body, last, rfl, hlast⟩
  · rfl
  · exact readings_concat_append hlast body [] more

/-- There is a reading in a stream whose last line ends one. -/
theorem readings_ne_nil {lines : List (List UInt8)} (h : Ended lines) (hne : lines ≠ []) :
    readings [] lines ≠ [] := by
  rcases h.eq_nil_or_concat with rfl | ⟨body, last, rfl, hlast⟩
  · exact absurd rfl hne
  · generalize ([] : List (List Char)) = kept
    induction body generalizing kept with
    | nil =>
      obtain ⟨reading, hreading⟩ := exists_readings_of_endsReading hlast kept
      rw [List.nil_append, hreading]
      exact List.cons_ne_nil _ _
    | cons line body ih =>
      have hbody : Ended (body ++ [last]) := h.of_suffix (List.suffix_cons line _)
      rw [List.cons_append, readings]
      split
      · exact List.cons_ne_nil _ _
      · split
        · exact List.cons_ne_nil _ _
        · exact ih hbody (by simp) _

/-- A request is handed the first reading and leaves the others. -/
theorem exists_collect_of_readings {lines : List (List UInt8)} {kept : List (List Char)}
    {reading : Except SolverError String} {more : List (Except SolverError String)}
    (h : readings kept lines = reading :: more) :
    ∃ rest, collect kept lines = (reading, rest) ∧ rest <:+ lines ∧ readings [] rest = more := by
  induction lines generalizing kept with
  | nil => cases h
  | cons line rest ih =>
    rw [readings] at h
    rw [collect]
    cases htext : lineText? line with
    | none =>
      simp only [htext] at h
      cases h
      exact ⟨rest, rfl, List.suffix_cons line rest, rfl⟩
    | some text =>
      simp only [htext] at h
      -- at a marker a reading ends, and at any other line it goes on
      by_cases hmarker : Reply.isMarker text = true
      · rw [if_pos hmarker] at h
        cases h
        exact ⟨rest, if_pos hmarker, List.suffix_cons line rest, rfl⟩
      · rw [if_neg hmarker] at h
        obtain ⟨unread, hcollect, hsuffix, hmore⟩ := ih h
        exact ⟨unread, (if_neg hmarker).trans hcollect,
          hsuffix.trans (List.suffix_cons line rest), hmore⟩

/-- A line of text is read as this text without the blanks at its end. -/
theorem lineText?_utf8 (cs : List Char) : lineText? (utf8 cs) = some (trimEnd cs) := by
  rw [lineText?, ofUtf8?_utf8]
  rfl

end Connection

/-! ## Replies -/

/-- The text of a reply as it is handed over: its lines without the blanks at their ends, without
acknowledgements, and without blanks at the end. -/
def Reply.text (cs : List Char) : String :=
  String.ofList (trimEnd (unlines (((terminated '\n' cs).map trimEnd).filter
    fun line => !Reply.isAcknowledgement line)))

namespace ScriptedReply

/-- What requests are handed from a reply, one after the other. -/
def readings (reply : ScriptedReply) : List (Except SolverError String) :=
  Connection.readings [] reply.lines

/-- A reply with a marker behind it, and with no marker in it. The process goes on. -/
structure Framed (reply : ScriptedReply) : Prop where
  goes_on : reply.closes = false
  marked : ∃ marker, reply.marker = some marker ∧ Reply.isMarker marker.toList = true
  unmarked : ∀ line ∈ terminated 10 (utf8 reply.text.toList ++ reply.bytes),
    ∀ text ∈ Connection.lineText? line, Reply.isMarker text = false

/-- A framed reply that is the text `cs`. -/
structure IsText (reply : ScriptedReply) (cs : List Char) : Prop extends Framed reply where
  bytes_eq : utf8 reply.text.toList ++ reply.bytes = utf8 cs

/-- A marker has no blanks at its end and is one line. -/
theorem trimEnd_of_isMarker {line : List Char} (h : Reply.isMarker line = true) :
    trimEnd line = line ∧ pieces '\n' line = [line] := by
  rw [Reply.isMarker, Bool.or_eq_true, beq_iff_eq, beq_iff_eq] at h
  rcases h with rfl | rfl <;> decide

/-- A framed reply is its text with a marker behind it. -/
theorem Framed.exists_marker {reply : ScriptedReply} (h : reply.Framed) :
    ∃ marker, reply.lines = terminated 10 (utf8 reply.text.toList ++ reply.bytes) ++ [utf8 marker] ∧
      Connection.lineText? (utf8 marker) = some marker ∧ Reply.isMarker marker = true := by
  obtain ⟨marker, hsome, hmarker⟩ := h.marked
  obtain ⟨htrim, hpieces⟩ := trimEnd_of_isMarker hmarker
  refine ⟨marker.toList, ?_, ?_, hmarker⟩
  · rw [lines, hsome]
    exact congrArg (_ ++ ·) ((pieces_utf8 marker.toList).trans (congrArg (·.map utf8) hpieces))
  · rw [Connection.lineText?_utf8, htrim]

/-- A framed reply is ended and not empty. -/
theorem Framed.ended {reply : ScriptedReply} (h : reply.Framed) :
    Connection.Ended reply.lines ∧ reply.lines ≠ [] := by
  obtain ⟨marker, hlines, htext, hmarker⟩ := h.exists_marker
  rw [hlines]
  refine ⟨fun line hline => ?_, by simp⟩
  simp only [List.getLast?_concat, Option.mem_def, Option.some.injEq] at hline
  rw [← hline, Connection.endsReading, htext]
  exact hmarker

/-- The readings of lines without markers, with a marker behind them. -/
theorem exists_readings_of_unmarked {lines : List (List UInt8)} {marker : List Char}
    (htext : Connection.lineText? (utf8 marker) = some marker)
    (hmarker : Reply.isMarker marker = true)
    (hlines : ∀ line ∈ lines, ∀ text ∈ Connection.lineText? line, Reply.isMarker text = false)
    (kept : List (List Char)) :
    ∃ faults text, Connection.readings kept (lines ++ [utf8 marker])
      = List.replicate faults (.error (.io .invalidUtf8)) ++ [.ok text] := by
  induction lines generalizing kept with
  | nil =>
    refine ⟨0, String.ofList (trimEnd (unlines kept)), ?_⟩
    rw [List.nil_append, Connection.readings, htext]
    exact if_pos hmarker
  | cons line lines ih =>
    have hrest := fun kept => ih (fun l hl => hlines l (List.mem_cons_of_mem line hl)) kept
    rw [List.cons_append, Connection.readings]
    cases hline : Connection.lineText? line with
    | none =>
      -- a line that is no UTF-8 ends a reading, and what was kept is gone
      obtain ⟨faults, text, hfaults⟩ := hrest []
      exact ⟨faults + 1, text, congrArg (_ :: ·) hfaults⟩
    | some text =>
      simp only [hlines line List.mem_cons_self text hline, Bool.false_eq_true, if_false]
      exact hrest _

/-- **A framed reply is handed over in the end**, after an error for each line that is no text. -/
theorem Framed.exists_readings {reply : ScriptedReply} (h : reply.Framed) :
    ∃ faults text, reply.readings
      = List.replicate faults (.error (.io .invalidUtf8)) ++ [.ok text] := by
  obtain ⟨marker, hlines, htext, hmarker⟩ := h.exists_marker
  rw [readings, hlines]
  exact exists_readings_of_unmarked htext hmarker h.unmarked []

/-- Lines of text with a marker behind them are one reading, of the lines that count. -/
theorem readings_of_text {marker : List Char}
    (htext : Connection.lineText? (utf8 marker) = some marker)
    (hmarker : Reply.isMarker marker = true) {lines : List (List Char)}
    (hlines : ∀ line ∈ lines, Reply.isMarker (trimEnd line) = false) (kept : List (List Char)) :
    Connection.readings kept (lines.map utf8 ++ [utf8 marker])
      = [.ok (String.ofList (trimEnd (unlines (kept ++ (lines.map trimEnd).filter
          fun line => !Reply.isAcknowledgement line))))] := by
  induction lines generalizing kept with
  | nil =>
    rw [List.map_nil, List.nil_append, Connection.readings, htext, List.map_nil, List.filter_nil,
      List.append_nil]
    exact if_pos hmarker
  | cons line lines ih =>
    have hrest := fun kept => ih (fun l hl => hlines l (List.mem_cons_of_mem line hl)) kept
    rw [List.map_cons, List.cons_append, Connection.readings, Connection.lineText?_utf8,
      List.map_cons]
    simp only [hlines line List.mem_cons_self, Bool.false_eq_true, if_false]
    rw [hrest]
    -- acknowledgements are dropped, other lines kept
    cases hack : Reply.isAcknowledgement (trimEnd line) <;> simp [hack]

/-- **A reply that is text is handed over at once.** -/
theorem IsText.readings_eq {reply : ScriptedReply} {cs : List Char} (h : reply.IsText cs) :
    reply.readings = [.ok (Reply.text cs)] := by
  obtain ⟨marker, hlines, htext, hmarker⟩ := h.exists_marker
  have hunmarked := h.unmarked
  rw [h.bytes_eq, terminated_utf8] at hlines hunmarked
  rw [readings, hlines]
  refine readings_of_text htext hmarker (fun line hline => ?_) []
  exact hunmarked _ (List.mem_map_of_mem hline) _ (Connection.lineText?_utf8 line)

end ScriptedReply

end Interpolants
