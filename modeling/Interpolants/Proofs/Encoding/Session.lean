import Interpolants.Proofs.Encoding.Bounds
import Interpolants.Proofs.Encoding.Encounters

/-!
# Interpolants — sessions of an encoder

What an encoder has declared and sent after any calls to it, in any order and wherever they fail.
One call adds what it reaches (`EncoderCall.outcome_step`), so a whole run has declared the
variables that it reached, each of them once, and has sent nothing else (`EncoderCall.after_eq`).
The declared variables never disagree about a name (`EncoderCall.coherent_reached`), from which it
follows that each command can be told from those about other variables.
-/

namespace Interpolants

namespace EncoderCall

/-- The encoder after some calls, whatever each of them gave. -/
def after (calls : List EncoderCall) : Encoder :=
  calls.foldl (fun enc call => (enc.run call.step).2) .empty

/-- The variables that some calls reach one after the other. -/
def reached (calls : List EncoderCall) : List Variable :=
  calls.foldl (fun vs call => vs ++ reach vs call.encounters) []

/-- A further call reaches what it encounters, if it can. -/
theorem reached_snoc (calls : List EncoderCall) (call : EncoderCall) :
    reached (calls ++ [call]) = reached calls ++ reach (reached calls) call.encounters := by
  rw [reached, List.foldl_append]
  rfl

/-- **The state of a session is what it has reached.** -/
theorem after_eq (calls : List EncoderCall) :
    after calls = ⟨.reaching (reached calls), commandsFor [] (reached calls)⟩ := by
  induction calls using List.reverseRecOn with
  | nil => rfl
  | append_singleton calls call ih =>
    obtain ⟨result, hstep, -⟩ := call.outcome_step (reached calls) (commandsFor [] (reached calls))
    have hafter : after (calls ++ [call]) = (outcome call.step (after calls)).2 := by
      rw [after, List.foldl_append]
      rfl
    rw [hafter, ih, hstep, reached_snoc, commandsFor_append, List.nil_append]

/-- **The variables that calls have reached are coherent.** -/
theorem coherent_reached (calls : List EncoderCall) : Coherent (reached calls) := by
  induction calls using List.reverseRecOn with
  | nil => exact coherent_nil
  | append_singleton calls call ih =>
    rw [reached_snoc]
    exact ih.reach call.encounters

/-- What was reached stays reached. -/
theorem reached_subset (calls more : List EncoderCall) :
    ∀ x ∈ reached calls, x ∈ reached (calls ++ more) := by
  intro x hx
  induction more using List.reverseRecOn with
  | nil => rwa [List.append_nil]
  | append_singleton more call ih =>
    rw [← List.append_assoc, reached_snoc]
    exact List.mem_append_left _ ih

end EncoderCall

/-! ## What a session has been told -/

/-- What a session is told about a variable has its name as subject. -/
theorem subject?_of_mem_commands {x : Variable} {c : Sexp} (h : c ∈ x.commands) :
    Command.subject? c = some x.name := by
  obtain ⟨sort, -, h⟩ := List.mem_flatMap.1 h
  rcases List.mem_cons.1 h with rfl | h
  · rfl
  · obtain ⟨i, rfl | rfl⟩ := Variable.exists_of_mem_boundAssertions h <;> rfl

/-- None of it is a named assertion. -/
theorem named?_of_mem_commands {x : Variable} {c : Sexp} (h : c ∈ x.commands) :
    Command.named? c = none := by
  obtain ⟨sort, -, h⟩ := List.mem_flatMap.1 h
  rcases List.mem_cons.1 h with rfl | h
  · rfl
  · obtain ⟨i, rfl | rfl⟩ := Variable.exists_of_mem_boundAssertions h <;> rfl

/-- A session is told a variable's sort, and then its bounds. -/
theorem Variable.commands_eq {x : Variable} {sort : String} (h : x.ty.sort? = some sort) :
    x.commands = Command.declareFun x.name sort :: x.boundAssertions := by
  simp [commands, h, declaration]

namespace Coherent

variable {vs : List Variable}

/-- The registry of coherent variables knows each of them by its name. -/
theorem find?_eq_some_iff (h : Coherent vs) {name : String} {x : Variable} :
    (Registry.reaching vs).find? name = some x ↔ x ∈ vs ∧ x.name = name := by
  rw [Registry.find?_reaching]
  constructor
  · intro hx
    exact ⟨List.mem_of_find?_eq_some hx, by simpa using List.find?_some hx⟩
  · rintro ⟨hx, rfl⟩
    obtain ⟨y, hy⟩ := Option.isSome_iff_exists.1
      (List.find?_isSome (p := (·.name == x.name)).2 ⟨x, hx, by simp⟩)
    rw [hy, h.unique y (List.mem_of_find?_eq_some hy) x hx (by simpa using List.find?_some hy)]

/-- Among the commands about the variables of a session, those about one of them stand together. -/
theorem exists_commands_eq (h : Coherent vs) {x : Variable} (hx : x ∈ vs) :
    ∃ before after, vs.eraseDups.flatMap Variable.commands = before ++ x.commands ++ after ∧
      ∀ c ∈ before ++ after, Command.subject? c ≠ some x.name := by
  obtain ⟨xs, ys, heq⟩ := List.append_of_mem (List.mem_eraseDups.2 hx)
  refine ⟨xs.flatMap Variable.commands, ys.flatMap Variable.commands, ?_, fun c hc hsubject => ?_⟩
  · rw [heq, List.flatMap_append, List.flatMap_cons, List.append_assoc]
  · rw [← List.flatMap_append] at hc
    obtain ⟨y, hy, hc⟩ := List.mem_flatMap.1 hc
    rw [subject?_of_mem_commands hc, Option.some.injEq] at hsubject
    -- a variable of the same name would be the same one, and there is no second one
    have hmem : y ∈ vs := by
      rw [← List.mem_eraseDups, heq]
      grind
    have hyx := h.unique y hmem x hx hsubject
    have hnodup := nodup_eraseDups vs
    rw [heq] at hnodup
    grind

end Coherent

/-- The assertions sent to a session are those of the bounds of its integer variables. -/
theorem satisfied_commands {zero : Smt.ByZero} {I : Interpretation Smt.Value} {env : Env Smt.Value}
    (hI : Smt.Computes zero I) {vs : List Variable} (h : Coherent vs) {ρ : String → Int}
    (hρ : ∀ x ∈ vs, ∀ b, x.ty = .int b →
      (Sexp.symbol x.name).interpret I env = some (.int (ρ x.name))) :
    (∀ c ∈ vs.eraseDups.flatMap Variable.commands, Command.Satisfied I env c) ↔
      ∀ x ∈ vs.eraseDups, ∀ b, x.ty = .int b → b.Allows (ρ x.name) := by
  rw [List.forall_mem_flatMap]
  refine forall₂_congr fun x hx => ?_
  have hmem := List.mem_eraseDups.1 hx
  obtain ⟨sort, hsort⟩ := h.sorts x hmem
  have hdeclaration : Command.Satisfied I env (Command.declareFun x.name sort) := nofun
  rw [Variable.commands_eq hsort, List.forall_mem_cons, and_iff_right hdeclaration]
  cases hty : x.ty with
  | int b =>
    rw [hI.satisfied_boundAssertions hty (hρ x hmem b hty)]
    simp
  | bool | bitvec => simp [Variable.boundAssertions, hty]

namespace EncoderCall

/-- **The session of an encoder.** After any calls the registry holds the variables that were
reached, in the order in which they were first reached, and the commands sent are their declarations
and bounds in this order. Each is declared once and with the sort of its type, its bounds are
asserted once and behind the declaration, and no command is about anything else. Entries are found
under their own names and later calls keep them. An assignment of integers satisfies the assertions
sent exactly if it keeps all integer variables within their bounds. -/
theorem declared_and_bounded_once (calls more : List EncoderCall) :
    let enc := after calls
    enc.declared.entries = (reached calls).eraseDups ∧
    enc.sent = enc.declared.entries.flatMap Variable.commands ∧
    (∀ x ∈ enc.declared.entries, ∃ sort before behind, x.ty.sort? = some sort ∧
      enc.sent = before ++ (Command.declareFun x.name sort :: x.boundAssertions) ++ behind ∧
      ∀ c ∈ before ++ behind, Command.subject? c ≠ some x.name) ∧
    (∀ c ∈ enc.sent, ∃ x ∈ enc.declared.entries, Command.subject? c = some x.name) ∧
    (∀ x ∈ enc.declared.entries, enc.declared.find? x.name = some x) ∧
    (∀ name x, enc.declared.find? name = some x →
      x.name = name ∧ (after (calls ++ more)).declared.find? name = some x) ∧
    (∀ (zero : Smt.ByZero) (ρ : String → Int),
      (∀ c ∈ enc.sent, Command.Satisfied (Smt.integers zero ρ) (Smt.integerEnv ρ) c) ↔
        ∀ x ∈ enc.declared.entries, ∀ b, x.ty = .int b → b.Allows (ρ x.name)) ∧
    ∀ (zero : Smt.ByZero) (w : String → Int64),
      (∀ c ∈ enc.sent, Command.Satisfied (Smt.integers zero fun name => (w name).toInt)
          (Smt.integerEnv fun name => (w name).toInt) c) ↔
        ∀ x ∈ enc.declared.entries, ∀ b, x.ty = .int b → b.contains (w x.name) = true := by
  intro enc
  have henc : enc = ⟨.reaching (reached calls), commandsFor [] (reached calls)⟩ := after_eq calls
  have hcoherent := coherent_reached calls
  have hentries : enc.declared.entries = (reached calls).eraseDups := by rw [henc]; rfl
  have hsent : enc.sent = (reached calls).eraseDups.flatMap Variable.commands := by
    rw [henc, commandsFor_of_nil]
  have hassigned : ∀ (zero : Smt.ByZero) (ρ : String → Int),
      (∀ c ∈ enc.sent, Command.Satisfied (Smt.integers zero ρ) (Smt.integerEnv ρ) c) ↔
        ∀ x ∈ enc.declared.entries, ∀ b, x.ty = .int b → b.Allows (ρ x.name) := by
    intro zero ρ
    rw [hsent, hentries]
    exact satisfied_commands (Smt.computes_integers zero ρ) hcoherent
      fun x _ _ _ => Smt.interpret_symbol_integers zero ρ x.name
  refine ⟨hentries, by rw [hentries, hsent], ?_, ?_, ?_, ?_, hassigned, fun zero w => ?_⟩
  -- what is sent about a variable stands in one place, and nothing else is about the variable
  · intro x hx
    rw [hentries, List.mem_eraseDups] at hx
    obtain ⟨sort, hsort⟩ := hcoherent.sorts x hx
    obtain ⟨before, behind, heq, hother⟩ := hcoherent.exists_commands_eq hx
    exact ⟨sort, before, behind, hsort, by rw [hsent, heq, Variable.commands_eq hsort], hother⟩
  · intro c hc
    rw [hsent] at hc
    obtain ⟨x, hx, hc⟩ := List.mem_flatMap.1 hc
    exact ⟨x, by rwa [hentries], subject?_of_mem_commands hc⟩
  · intro x hx
    rw [hentries, List.mem_eraseDups] at hx
    rw [henc]
    exact hcoherent.find?_eq_some_iff.2 ⟨hx, rfl⟩
  · intro name x hx
    rw [henc] at hx
    obtain ⟨hmem, hname⟩ := hcoherent.find?_eq_some_iff.1 hx
    refine ⟨hname, ?_⟩
    rw [after_eq]
    exact (coherent_reached _).find?_eq_some_iff.2 ⟨reached_subset calls more x hmem, hname⟩
  · rw [hassigned]
    simp only [Bounds.allows_toInt]

end EncoderCall

end Interpolants
