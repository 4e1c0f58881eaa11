import Interpolants.Proofs.Solver.Replay

/-!
# Interpolants — connections that differ in what they record

A transcript and the folder that it is saved in are written and never read. So if two connections
differ in these alone (`Connection.SameButRecords`), an exchange does the same with both of them:
they hand over the same replies, and they still differ in what they record alone. Whether a
transcript can be saved is told by the folder and not by what the transcript holds. What a session
has recorded is told by all that was exchanged (`Connection.Records.carries`).
-/

namespace Interpolants

namespace Connection

theorem folder_send (p : Connection) (command : Sexp) : (p.send command).folder = p.folder := by
  rw [send, deliver]
  split
  · rfl
  · split <;> rfl

theorem folder_reply (p : Connection) : (outcome reply p).2.folder = p.folder := by
  rcases p.closed_or_open with hclosed | ⟨hdelivered, hlistening⟩
  · rw [outcome_reply_of_closed hclosed]
  · rw [outcome_reply hdelivered hlistening]

/-- What saving does, if there is a folder that the transcript can be saved in. -/
theorem save_of_some {p : Connection} {t : Transcript} {folder : Folder}
    (ht : p.transcript = some t) (hfolder : p.folder.save? t = some folder) :
    p.save = (true, { p with folder }) := by
  rw [save, ht, Option.bind_some, hfolder]

/-- Where nothing can be saved, nothing changes. -/
theorem save_of_none {p : Connection} (h : p.transcript.bind p.folder.save? = none) :
    p.save = (false, p) := by
  rw [save, h]

/-! ## Connections -/

/-- Two connections that differ in what they record alone. -/
def SameButRecords (p q : Connection) : Prop :=
  q = { p with transcript := q.transcript, folder := q.folder }

namespace SameButRecords

variable {p q : Connection}

theorem refl (p : Connection) : p.SameButRecords p :=
  rfl

theorem child_eq (h : p.SameButRecords q) : q.child = p.child := by
  rw [h]

theorem undelivered_eq (h : p.SameButRecords q) : q.undelivered = p.undelivered := by
  rw [h]

theorem invocation_eq (h : p.SameButRecords q) : q.invocation = p.invocation := by
  rw [h]

/-- What is recorded has no part in a failed launch. -/
theorem launchFault?_eq (h : p.SameButRecords q) : q.launchFault? = p.launchFault? := by
  rw [h]
  rfl

/-- It does not matter what is recorded instead. -/
theorem withRecords (h : p.SameButRecords q) (t t' : Option Transcript) (folder folder' : Folder) :
    SameButRecords { p with transcript := t, folder := folder }
      { q with transcript := t', folder := folder' } := by
  rw [h]
  rfl

/-- What the process does has no part in what is recorded. -/
theorem withChild (h : p.SameButRecords q) (child : Child) :
    SameButRecords { p with child } { q with child } := by
  rw [h]
  rfl

/-- A command adds to the records alone, beside what it does to the process. -/
theorem send (h : p.SameButRecords q) (command : Sexp) :
    (p.send command).SameButRecords (q.send command) := by
  rw [h]
  unfold SameButRecords Connection.send record deliver
  simp only
  split
  · rfl
  · split <;> rfl

theorem comment (h : p.SameButRecords q) (text : String) :
    (p.comment text).SameButRecords (q.comment text) := by
  rw [h]
  rfl

/-- Saving changes the records alone. -/
theorem save (h : p.SameButRecords q) : p.save.2.SameButRecords q.save.2 := by
  have hsaved : ∀ r : Connection, r.save.2 = { r with folder := r.save.2.folder } := by
    intro r
    unfold Connection.save
    split <;> rfl
  rw [hsaved p, hsaved q]
  exact h.withRecords p.transcript q.transcript _ _

/-- The same reply is handed over, whatever is recorded. -/
theorem reply (h : p.SameButRecords q) :
    (outcome Connection.reply q).1 = (outcome Connection.reply p).1 ∧
      (outcome Connection.reply p).2.SameButRecords (outcome Connection.reply q).2 := by
  have hchild := h.child_eq
  have hundelivered := h.undelivered_eq
  rcases p.closed_or_open with hclosed | ⟨hdelivered, hlistening⟩
  · rw [outcome_reply_of_closed hclosed,
      outcome_reply_of_closed (by rw [hchild, hundelivered]; exact hclosed)]
    exact ⟨rfl, by rw [h]; rfl⟩
  · rw [outcome_reply hdelivered hlistening, outcome_reply (hundelivered.trans hdelivered)
      ((congrArg Child.listening hchild).trans hlistening), hchild]
    exact ⟨rfl, by rw [h]; rfl⟩

end SameButRecords

end Connection

/-! ## What is recorded -/

/-- After these of the exchanges the transcript was to be saved. -/
def Exchange.SavedAfter (soFar log : List Exchange) : Prop :=
  ∃ written, soFar ++ [.saved written] <+: log

/-- One more exchange adds a place to save at if it saves. -/
theorem Exchange.savedAfter_snoc_iff {soFar log : List Exchange} {exchange : Exchange} :
    SavedAfter soFar (log ++ [exchange]) ↔
      SavedAfter soFar log ∨ soFar = log ∧ ∃ written, exchange = .saved written := by
  simp only [SavedAfter, List.prefix_concat_iff, exists_or]
  rw [or_comm]
  refine or_congr_right ⟨?_, ?_⟩
  · rintro ⟨written, heq⟩
    obtain ⟨hlog, hexchange⟩ := List.append_inj' heq rfl
    exact ⟨hlog, written, (List.cons.inj hexchange).1.symm⟩
  · rintro ⟨rfl, written, rfl⟩
    exact ⟨written, rfl⟩

namespace Connection

/-- The transcript of a recorded session after some exchanges. -/
def transcriptOf (p : Connection) (log : List Exchange) : Transcript :=
  ⟨.comment p.invocation.commandLine :: log.flatMap Exchange.entries⟩

/-- What a session leaves in the folder: nothing, unless it is recorded and the folder can be
created, and then the transcripts that were to be saved. -/
structure Files (p : Connection) (recorded : Bool) (log : List Exchange) (folder : Folder) :
    Prop where
  creatable_eq : folder.creatable = p.folder.creatable
  eq_of_unkept : (recorded && p.folder.creatable) = false → folder = p.folder
  files_prefix : p.folder.files <+: folder.files
  mem_files_iff : (recorded && p.folder.creatable) = true → ∀ file, file ∈ folder.files ↔
    file ∈ p.folder.files ∨ ∃ soFar, Exchange.SavedAfter soFar log ∧
    file = (p.transcriptOf soFar).fileText

/-- What a session has recorded. -/
structure Records (p : Connection) (recorded : Bool) (log : List Exchange) (r : Connection) :
    Prop where
  transcript_eq : r.transcript = if recorded then some (p.transcriptOf log) else none
  files : p.Files recorded log r.folder

section

variable {p r r' : Connection} {recorded : Bool} {log : List Exchange} {exchange : Exchange}
  {passages : List Passage}

/-- Nothing is in the folder but what was. -/
theorem files_nil (p : Connection) (recorded : Bool) : p.Files recorded [] p.folder where
  creatable_eq := rfl
  eq_of_unkept _ := rfl
  files_prefix := List.prefix_rfl
  mem_files_iff _ file := by
    refine (or_iff_left ?_).symm
    rintro ⟨soFar, ⟨written, hprefix⟩, -⟩
    exact absurd (List.prefix_nil.1 hprefix) (by simp)

/-- An exchange that saves nothing leaves the folder as it is. -/
theorem Files.snoc {folder : Folder} (h : p.Files recorded log folder)
    (hexchange : ∀ written, exchange ≠ .saved written) :
    p.Files recorded (log ++ [exchange]) folder where
  creatable_eq := h.creatable_eq
  eq_of_unkept := h.eq_of_unkept
  files_prefix := h.files_prefix
  mem_files_iff hkept file := by
    have hsaved : ∀ soFar, Exchange.SavedAfter soFar (log ++ [exchange]) ↔
        Exchange.SavedAfter soFar log :=
      fun soFar => Exchange.savedAfter_snoc_iff.trans
        (or_iff_left fun ⟨_, written, heq⟩ => hexchange written heq)
    simp only [hsaved]
    exact h.mem_files_iff hkept file

/-- Saving adds the transcript so far, if the session is recorded and the folder can be created. -/
theorem Records.files_save (h : p.Records recorded log r) (written : Bool) :
    p.Files recorded (log ++ [.saved written]) r.save.2.folder := by
  obtain ⟨htranscript, hfiles⟩ := h
  cases hkept : recorded && p.folder.creatable with
  | false =>
    have hunsaved : r.transcript.bind r.folder.save? = none := by
      rw [htranscript]
      cases recorded with
      | false => rfl
      | true => exact Folder.save?_eq_none_iff.2 (hfiles.creatable_eq.trans hkept)
    rw [save_of_none hunsaved]
    exact ⟨hfiles.creatable_eq, fun _ => hfiles.eq_of_unkept hkept, hfiles.files_prefix,
      fun hkept' => absurd (hkept.symm.trans hkept') Bool.false_ne_true⟩
  | true =>
    obtain ⟨rfl, hcreatable⟩ := Bool.and_eq_true_iff.1 hkept
    rw [if_pos rfl] at htranscript
    cases hsave : r.folder.save? (p.transcriptOf log) with
    | none =>
      rw [Folder.save?_eq_none_iff, hfiles.creatable_eq, hcreatable] at hsave
      cases hsave
    | some folder =>
      rw [save_of_some htranscript hsave]
      refine ⟨(Folder.creatable_of_save? hsave).trans hfiles.creatable_eq,
        fun hunkept => absurd (hunkept.symm.trans hkept) Bool.false_ne_true,
        hfiles.files_prefix.trans (Folder.files_of_save? hsave), fun _ file => ?_⟩
      -- the new file is the transcript of what was exchanged so far
      have hsaved : ∀ soFar, Exchange.SavedAfter soFar (log ++ [.saved written]) ↔
          Exchange.SavedAfter soFar log ∨ soFar = log := fun soFar =>
        Exchange.savedAfter_snoc_iff.trans (or_congr_right (and_iff_left ⟨written, rfl⟩))
      simp only [hsaved, or_and_right, exists_or, exists_eq_left]
      rw [Folder.mem_files_iff_of_save? hsave, hfiles.mem_files_iff hkept, or_assoc]

/-- An exchange keeps the account of what is recorded. -/
theorem Records.passes (h : p.Records recorded log r) (hpasses : r.Passes exchange r') :
    p.Records recorded (log ++ [exchange]) r' where
  transcript_eq := by
    rw [hpasses.transcript_eq, h.transcript_eq]
    cases recorded with
    | false => rfl
    | true => simp [transcriptOf]
  files := by
    cases hpasses with
    | told command =>
      rw [folder_send]
      exact h.files.snoc nofun
    | noted text => exact h.files.snoc nofun
    | saved => exact h.files_save r.save.1
    | handed =>
      rw [folder_reply]
      exact h.files.snoc nofun

/-- **What is recorded is told by the exchanges**, whatever the process does. -/
theorem Records.carries (h : p.Records recorded log r) (hcarries : r.Carries passages r') :
    p.Records recorded (log ++ passages.map Passage.exchange) r' := by
  induction hcarries generalizing log with
  | nil r child =>
    rw [List.map_nil, List.append_nil]
    exact ⟨h.transcript_eq, h.files⟩
  | @cons r _ _ child exchange _ hpasses _ ih =>
    have hbehind : p.Records recorded (log ++ [exchange]) _ :=
      Records.passes (r := { r with child }) ⟨h.transcript_eq, h.files⟩ hpasses
    have hlast := ih hbehind
    rwa [← List.append_cons] at hlast

/-- A launched session has recorded its command line, if it records. -/
theorem records_nil (p : Connection) (recorded : Bool) :
    p.Records recorded [] { p with transcript := p.firstTranscript recorded } :=
  ⟨rfl, p.files_nil recorded⟩

end

end Connection

end Interpolants
