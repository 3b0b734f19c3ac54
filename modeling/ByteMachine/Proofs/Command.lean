/-
The command as loading and running.

What the command puts out at any threshold is what it puts out at the threshold `trace`, less the
records whose levels are not shown.  The values among it, the exit code and the error messages
come from loading the file and running the program, and from nothing else:

* `Report.restrict`, `run_eq_map_restrict` — the threshold leaves records out, and does no more;
* `values_items`, `values_turns` — the values put out for a cycle and for a run are those offered to
  the sink;
* `execution` — the run of a program that collects its values;
* `exists_report_of_execution` — a program that ends does so within the cycles that the command
  allows it, and its run is what the report tells of;
* `exists_logged_of_report` — the records in a report of a run are those put out before it and the
  log of the run;
* `Accounts`, `Logs` — what the report has to be, by the arguments, the files and the run;
* `run_composes_load_and_execution` — it is so, with every setting.
-/
import ByteMachine.FileTree
import ByteMachine.Proofs.Account
import ByteMachine.Proofs.Encoding
import ByteMachine.Proofs.Printing
import ByteMachine.Proofs.Recurrence

namespace ByteMachine

variable {σ α β : Type}

/-- The same run with something else seen of it. -/
def Run.mapSeen (g : α → β) (r : Run σ α) : Run σ β := ⟨r.machine, r.sink, r.ending, g r.seen⟩

/-- Onlookers that see the same turns see the same run. -/
theorem Machine.runUntil_mapSeen [Sink σ] (stop : Machine → Bool) (see : α → Turn → α)
    (see' : β → Turn → β) (g : α → β) (h : ∀ seen t, see' (g seen) t = g (see seen t))
    (limit : Nat) (m : Machine) (sink : σ) (seen : α) :
    runUntil stop see' limit m sink (g seen) = (runUntil stop see limit m sink seen).mapSeen g := by
  induction limit generalizing m sink seen with
  | zero =>
    cases hstop : stop m with
    | true => rw [runUntil_of_stop hstop, runUntil_of_stop hstop]; rfl
    | false => rw [runUntil_zero see hstop, runUntil_zero see' hstop]; rfl
  | succ limit ih =>
    cases hstop : stop m with
    | true => rw [runUntil_of_stop hstop, runUntil_of_stop hstop]; rfl
    | false =>
      cases hout : (m.cycle sink).outcome with
      | error f =>
        rw [runUntil_succ_error see hstop hout, runUntil_succ_error see' hstop hout, h]
        rfl
      | ok e => rw [runUntil_succ_ok see hstop hout, runUntil_succ_ok see' hstop hout, h, ih]

namespace CommandLine

open ObjectFile

/-- The value that a piece of output is, unless it is a record. -/
def Item.value? : Item → Option Byte
  | value v => some v
  | record _ => none

def Item.record? : Item → Option Record
  | value _ => none
  | record r => some r

/-- The records among pieces of output. -/
def recorded (output : Array Item) : List Record := output.toList.filterMap Item.record?

theorem passes_eq (t : Threshold) (i : Item) :
    i.passes t = i.record?.all fun r => r.level ∈ t.levels := by
  cases i with
  | value v => rfl
  | record r =>
    show t.admits r.level = decide (r.level ∈ t.levels)
    rw [Bool.eq_iff_iff, Threshold.admits_iff, decide_eq_true_iff]

/-- The records that pass are those that the threshold selects. -/
theorem filterMap_filter_passes (t : Threshold) (items : List Item) :
    (items.filter (Item.passes t)).filterMap Item.record? =
      t.select (items.filterMap Item.record?) := by
  rw [List.filterMap_filter, Threshold.select, List.filter_filterMap]
  refine List.filterMap_congr fun i _ => ?_
  cases i <;> rfl

namespace Report

def values (r : Report) : List Byte := r.output.toList.filterMap Item.value?

def records (r : Report) : List Record := recorded r.output

/-- The output without the lines of the records. -/
def printed (r : Report) : String :=
  String.join ((r.output.toList.filter fun i => i.value?.isSome).map fun i => i.line ++ "\n")

/-- The report with the records left out that a threshold does not admit. -/
def restrict (t : Threshold) (r : Report) : Report :=
  { r with output := r.output.filter (Item.passes t) }

theorem printed_eq (r : Report) : r.printed = decimalLines r.values := by
  refine congrArg String.join ?_
  rw [values]
  induction r.output.toList with
  | nil => rfl
  | cons i items ih =>
    cases i with
    | value v => exact congrArg (List.cons v.line) ih
    | record r => exact ih

theorem values_restrict (t : Threshold) (r : Report) : (r.restrict t).values = r.values := by
  rw [values, values, restrict, Array.toList_filter, List.filterMap_filter]
  refine List.filterMap_congr fun i _ => ?_
  cases i with
  | value v => rfl
  | record r => exact ite_self none

theorem records_restrict (t : Threshold) (r : Report) :
    (r.restrict t).records = t.select r.records := by
  rw [records, records, recorded, recorded, restrict, Array.toList_filter, filterMap_filter_passes]

end Report

/-! ### The threshold -/

theorem append_trace (output : Array Item) (new : List Item) :
    append (.upTo .trace) output new = output ++ new := by
  rw [append, List.filter_eq_self.2]
  intro i _
  cases i with
  | value v => rfl
  | record r => exact Threshold.admits_trace r.level

/-- Items can be left out as they come, or afterwards. -/
theorem append_filter (t : Threshold) (output : Array Item) (new : List Item) :
    append t (output.filter (Item.passes t)) new =
      (append (.upTo .trace) output new).filter (Item.passes t) := by
  rw [append_trace, append]
  refine Array.toList_inj.1 ?_
  simp

/-- What a run comes to for the command. -/
def Job.conclude (job : Job) (run : Run (Array Byte) (Array Item)) : Progress :=
  let output := append job.threshold run.seen (run.closing.map .record)
  match run.ending with
  | .stopped => .finished (.success output)
  | .failed fault =>
    .finished (.failure output ["`" ++ job.path ++ "` stopped with an error", fault.message])
  | .unfinished => .running output { job with machine := run.machine }

/-- A command that has come this far, with another threshold from the start. -/
def Progress.restrict (t : Threshold) : Progress → Progress
  | finished report => .finished (report.restrict t)
  | running output job => .running (output.filter (Item.passes t)) { job with threshold := t }

/-- The report of a command that is finished. -/
def Progress.report? : Progress → Option Report
  | finished report => some report
  | running .. => none

theorem Progress.report?_restrict (t : Threshold) (p : Progress) :
    (p.restrict t).report? = p.report?.map (Report.restrict t) := by
  cases p <;> rfl

theorem Progress.finish_running (output : Array Item) (job : Job) :
    (running output job).finish = (job.resume Machine.configurations output).report? := by
  unfold finish
  dsimp only
  -- What the run comes to is left open: there may be as many cycles as there are configurations.
  generalize job.resume Machine.configurations output = next
  cases next <;> rfl

variable (t : Threshold) (path : String) (m : Machine) (limit : Nat) (output : Array Item)
  (contents : Except ReadFault ByteArray)

theorem resume_eq_conclude : (Job.mk t path m).resume limit output =
    (Job.mk t path m).conclude (m.runToHalt (fun out turn => append t out (items turn)) limit
      (#[] : Array Byte) output) := rfl

theorem conclude_restrict (run : Run (Array Byte) (Array Item)) :
    (Job.mk t path m).conclude (run.mapSeen (Array.filter (Item.passes t))) =
      ((Job.mk (.upTo .trace) path m).conclude run).restrict t := by
  have houtput : append t (run.seen.filter (Item.passes t)) (run.closing.map .record) =
      (append (.upTo .trace) run.seen (run.closing.map .record)).filter (Item.passes t) :=
    append_filter t run.seen _
  obtain ⟨machine, sink, ending, seen⟩ := run
  cases ending with
  | stopped => exact congrArg (fun out => Progress.finished (.success out)) houtput
  | failed fault => exact congrArg (fun out => Progress.finished (.failure out _)) houtput
  | unfinished => exact congrArg (fun out => Progress.running out _) houtput

/-- The run is the same at every threshold, and more or less is seen of it. -/
theorem runToHalt_restrict :
    m.runToHalt (fun out turn => append t out (items turn)) limit (#[] : Array Byte)
        (output.filter (Item.passes t)) =
      (m.runToHalt (fun out turn => append (.upTo .trace) out (items turn)) limit
        (#[] : Array Byte) output).mapSeen fun out => out.filter (Item.passes t) := by
  rw [Machine.runToHalt, Machine.runToHalt]
  exact Machine.runUntil_mapSeen _ (fun out turn => append (.upTo .trace) out (items turn))
    (fun out turn => append t out (items turn)) (fun out => out.filter (Item.passes t))
    (fun out turn => append_filter t out (items turn)) limit m #[] output

theorem resume_restrict :
    (Job.mk t path m).resume limit (output.filter (Item.passes t)) =
      ((Job.mk (.upTo .trace) path m).resume limit output).restrict t := by
  rw [resume_eq_conclude, resume_eq_conclude, ← conclude_restrict, runToHalt_restrict]

variable {path contents}

theorem startFile_error {e : LoadError} (h : load contents = .error e) :
    startFile t path contents = .finished (.failure
      (append t #[] ((loadRecords (.error e)).map .record))
      (("failed to load `" ++ path ++ "`") :: e.chain)) := by
  simp only [startFile, h]

theorem startFile_ok {p : Program} (h : load contents = .ok p) :
    startFile t path contents = .running
      (append t (append t #[] ((loadRecords (.ok p)).map .record)) (p.memory.records.map .record))
      ⟨t, path, .new p.memory⟩ := by
  simp only [startFile, h]

theorem startFile_restrict :
    startFile t path contents = (startFile (.upTo .trace) path contents).restrict t := by
  have hfirst : ∀ new, append t #[] new =
      (append (.upTo .trace) #[] new).filter (Item.passes t) := append_filter t #[]
  cases h : load contents with
  | error e =>
    rw [startFile_error t h, startFile_error _ h, hfirst]
    rfl
  | ok p =>
    rw [startFile_ok t h, startFile_ok _ h, hfirst, append_filter]
    rfl

theorem finish_startFile : (startFile t path contents).finish =
    (startFile (.upTo .trace) path contents).finish.map (Report.restrict t) := by
  rw [startFile_restrict]
  cases h : load contents with
  | error e =>
    rw [startFile_error _ h]
    rfl
  | ok p =>
    rw [startFile_ok _ h, Progress.restrict, Progress.finish_running, Progress.finish_running,
      resume_restrict, Progress.report?_restrict]

/-! ### What a run puts out -/

/-- The value put out for a cycle is the one that it offers to the sink. -/
theorem values_items (m : Machine) (values : Array Byte) :
    (items ⟨m.snapshot, (m.cycle values).outcome⟩).filterMap Item.value? = m.offer?.toList := by
  cases hout : (m.cycle values).outcome with
  | ok e =>
    rw [← Machine.printed?_eq_offer? hout]
    cases e <;> rfl
  | error f =>
    rw [Machine.offer?_eq_none_of_error hout]
    rfl

theorem values_turns (m : Machine) (values : Array Byte) (n : Nat) :
    ((m.turns values n).flatMap items).filterMap Item.value? = m.offers values n := by
  rw [Machine.turns, List.flatMap_map, List.filterMap_flatMap, Machine.offers,
    List.filterMap_eq_flatMap_toList]
  exact List.flatMap_congr fun k _ => values_items _ _

theorem toList_foldl_append (turns : List Turn) (output : Array Item) :
    (turns.foldl (fun out turn => append (.upTo .trace) out (items turn)) output).toList =
      output.toList ++ turns.flatMap items := by
  induction turns generalizing output with
  | nil => rw [List.flatMap_nil, List.append_nil, List.foldl_nil]
  | cons turn turns ih =>
    rw [List.foldl_cons, ih, append_trace, List.flatMap_cons, ← List.append_assoc]
    simp

/-- Records add nothing to the values. -/
theorem values_append_records (output : Array Item) (records : List Record) :
    (append (.upTo .trace) output (records.map .record)).toList.filterMap Item.value? =
      output.toList.filterMap Item.value? := by
  have hnone : (records.map Item.record).filterMap Item.value? = [] := by
    rw [List.filterMap_map, List.filterMap_eq_nil_iff]
    exact fun r _ => rfl
  rw [append_trace, Array.toList_appendList, List.filterMap_append, hnone, List.append_nil]

/-! ### What a run puts on record -/

theorem recorded_append (t : Threshold) (output : Array Item) (new : List Item) :
    recorded (append t output new) = recorded output ++ t.select (new.filterMap Item.record?) := by
  rw [recorded, append, Array.toList_appendList, List.filterMap_append, filterMap_filter_passes,
    recorded]

theorem recorded_append_records (t : Threshold) (output : Array Item) (records : List Record) :
    recorded (append t output (records.map .record)) = recorded output ++ t.select records := by
  rw [recorded_append, List.filterMap_map]
  exact congrArg (fun rs => recorded output ++ t.select rs) List.filterMap_some

/-- Of what is put out for a cycle, the records are those that an onlooker keeps. -/
theorem recorded_append_items (t : Threshold) (output : Array Item) (turn : Turn) :
    recorded (append t output (items turn)) = keep t (recorded output) turn := by
  have hone : ∀ r, (itemsOf r).filterMap Item.record? = [r] := by
    intro r
    cases r with
    | done effect => cases effect <;> rfl
    | _ => rfl
  rw [recorded_append, keep, items, List.filterMap_flatMap]
  simp only [hone, List.flatMap_singleton']

/-- The run for the output and the run for the log are the same, up to what was there before. -/
theorem runToHalt_recorded (t : Threshold) (m : Machine) (limit : Nat) (output : Array Item) :
    (m.runToHalt (fun out turn => append t out (items turn)) limit (#[] : Array Byte)
        output).mapSeen recorded =
      (m.runToHalt (keep t) limit (#[] : Array Byte) []).mapSeen (recorded output ++ ·) := by
  have hrecorded := Machine.runUntil_mapSeen (fun m => !m.isRunning)
    (fun out turn => append t out (items turn)) (keep t) recorded
    (fun out turn => (recorded_append_items t out turn).symm) limit m (#[] : Array Byte) output
  have hbefore := Machine.runUntil_mapSeen (fun m => !m.isRunning) (keep t) (keep t)
    (recorded output ++ ·) (fun log turn => List.append_assoc ..) limit m (#[] : Array Byte) []
  rw [List.append_nil] at hbefore
  exact hrecorded.symm.trans hbefore

theorem records_conclude {job : Job} {run : Run (Array Byte) (Array Item)} {report : Report}
    (h : (job.conclude run).report? = some report) : run.ending ≠ .unfinished ∧
      report.records = recorded run.seen ++ job.threshold.select run.closing := by
  have hrecords := recorded_append_records job.threshold run.seen run.closing
  obtain ⟨machine, sink, ending, seen⟩ := run
  cases ending with
  | stopped =>
    obtain rfl := Option.some.inj h
    exact ⟨Ending.noConfusion, hrecords⟩
  | failed f =>
    obtain rfl := Option.some.inj h
    exact ⟨Ending.noConfusion, hrecords⟩
  | unfinished => cases h

/-- The records in the report on a program are those put out before it ran, and then the log of its
run at the same threshold. -/
theorem exists_logged_of_report {t : Threshold} {path : String} {m : Machine}
    {output : Array Item} {report : Report}
    (h : (Progress.running output ⟨t, path, m⟩).finish = some report) :
    ∃ last, m.logged t (#[] : Array Byte) = Part.some last ∧
      report.records = recorded output ++ last.seen := by
  rw [Progress.finish_running, resume_eq_conclude] at h
  obtain ⟨hended, hrecords⟩ := records_conclude h
  have hruns := runToHalt_recorded t m Machine.configurations output
  have hseen := congrArg Run.seen hruns
  have hending := congrArg Run.ending hruns
  have hclosing := congrArg Run.closing hruns
  simp only [Run.mapSeen] at hseen hending
  have hrun : m.run (keep t) (#[] : Array Byte) [] = Part.some _ :=
    Machine.run_of_runToHalt (keep t) rfl (hending ▸ hended)
  refine ⟨_, by rw [Machine.logged, hrun, Part.map_some], ?_⟩
  show report.records = recorded output ++ (_ ++ t.select _)
  rw [hrecords, hseen, List.append_assoc]
  exact congrArg (fun closing => recorded output ++ (_ ++ t.select closing)) hclosing

/-- The run of a program to the halt that collects the values printed. -/
def execution (p : Program) : Part (Run (Array Byte) Unit) :=
  (Machine.new p.memory).run (fun _ _ => ()) #[] ()

variable {p : Program} {r : Run (Array Byte) Unit}

/-- The exit code and the messages by which a command tells how the run of its program ended. -/
def Told (path : String) (ending : Ending) (code : UInt32) (errors : List String) : Prop :=
  ending = .stopped ∧ code = 0 ∧ errors = [] ∨
    ∃ f, ending = .failed f ∧ code = 1 ∧
      errors = ["`" ++ path ++ "` stopped with an error", f.message]

/-- How a run that ended is reported: with the values seen of it, and by its ending. -/
theorem exists_report_of_conclude {run : Run (Array Byte) (Array Item)} {vs : List Byte}
    (hended : run.ending ≠ .unfinished) (hvalues : run.seen.toList.filterMap Item.value? = vs) :
    ∃ report, ((Job.mk (.upTo .trace) path m).conclude run).report? = some report ∧
      report.values = vs ∧ Told path run.ending report.code report.errors := by
  have houtput : (append (.upTo .trace) run.seen (run.closing.map .record)).toList.filterMap
      Item.value? = vs := by
    rw [values_append_records, hvalues]
  obtain ⟨machine, sink, ending, seen⟩ := run
  cases ending with
  | stopped => exact ⟨_, rfl, houtput, .inl ⟨rfl, rfl, rfl⟩⟩
  | failed f => exact ⟨_, rfl, houtput, .inr ⟨f, rfl, rfl, rfl⟩⟩
  | unfinished => exact absurd rfl hended

/-- The report on a program that ends has the values that its run collects, and tells how the run
ended. -/
theorem exists_report_of_execution (h : execution p = Part.some r)
    (hout : output.toList.filterMap Item.value? = []) :
    ∃ report, (Progress.running output ⟨.upTo .trace, path, .new p.memory⟩).finish = some report ∧
      report.values = r.sink.toList ∧ Told path r.ending report.code report.errors := by
  obtain ⟨k, hk, rfl⟩ := Machine.exists_runUpTo _ rfl h
  rw [Progress.finish_running, resume_eq_conclude,
    Machine.runToHalt_eq_runUpTo _ rfl hk (Machine.lt_configurations rfl hk)]
  refine exists_report_of_conclude _ (Step.ending_ne_unfinished _) ?_
  show (List.foldl _ output _).toList.filterMap Item.value? =
    ((Machine.new p.memory).after (#[] : Array Byte) (k + 1)).2.toList
  rw [toList_foldl_append, List.filterMap_append, hout, values_turns, Machine.toList_after]

/-- There is one argument, it names an object file that can be loaded, and the program halts. -/
def Succeeds (args : List String) (read : String → Except ReadFault ByteArray) : Prop :=
  ∃ path p r, args = [path] ∧ load (read path) = .ok p ∧ execution p = Part.some r ∧
    r.ending = .stopped

/-- The exit code, the error messages and the text printed, by the arguments, the files and the run
of the program. -/
structure Accounts (args : List String) (read : String → Except ReadFault ByteArray)
    (code : UInt32) (errors : List String) (printed : String) : Prop where
  success_iff : code = 0 ∧ errors = [] ↔ Succeeds args read
  failure : ¬ Succeeds args read → code = 1
  usage : args.length ≠ 1 → printed = "" ∧ errors = ["usage: ls8 <object-file>"]
  unreadable : ∀ path fault, args = [path] → load (read path) = .error (.unreadable fault) →
    printed = "" ∧ errors = ["failed to load `" ++ path ++ "`",
      (LoadError.unreadable fault).message, fault.message]
  invalid : ∀ path lines, args = [path] → load (read path) = .error (.invalid lines) →
    printed = "" ∧ errors = ["failed to load `" ++ path ++ "`", (LoadError.invalid lines).message]
  ran : ∀ path p r, args = [path] → load (read path) = .ok p → execution p = Part.some r →
    printed = decimalLines r.sink.toList ∧
      ∀ f, r.ending = .failed f → errors = ["`" ++ path ++ "` stopped with an error", f.message]

variable {args : List String} {read : String → Except ReadFault ByteArray}

theorem ne_singleton_of_length_ne (h : args.length ≠ 1) (path : String) : args ≠ [path] := by
  rintro rfl
  exact h rfl

/-- What is loaded from the one path that is given is one thing. -/
theorem loaded_eq {path' : String} {x y : Except LoadError Program} (h : load (read path) = x)
    (ha : [path] = [path']) (hl : load (read path') = y) : x = y := by
  cases ha
  exact h.symm.trans hl

theorem accounts_usage (h : args.length ≠ 1) :
    Accounts args read 1 ["usage: ls8 <object-file>"] "" := by
  have hargs := ne_singleton_of_length_ne h
  have hnot : ¬ Succeeds args read := by
    rintro ⟨path, p, r, ha, -⟩
    exact hargs path ha
  exact {
    success_iff := ⟨fun hs => absurd hs.1 (by decide), fun hs => absurd hs hnot⟩
    failure := fun _ => rfl
    usage := fun _ => ⟨rfl, rfl⟩
    unreadable := fun path _ ha => absurd ha (hargs path)
    invalid := fun path _ ha => absurd ha (hargs path)
    ran := fun path _ _ ha => absurd ha (hargs path) }

/-- A file that cannot be loaded is not run, and nothing is printed. -/
theorem accounts_error {e : LoadError} (h : load (read path) = .error e) :
    Accounts [path] read 1 (("failed to load `" ++ path ++ "`") :: e.chain) "" := by
  have hnot : ¬ Succeeds [path] read := by
    rintro ⟨path', p, r, ha, hl, -⟩
    cases loaded_eq h ha hl
  refine {
    success_iff := ⟨fun hs => absurd hs.1 (by decide), fun hs => absurd hs hnot⟩
    failure := fun _ => rfl
    usage := fun ha => absurd rfl ha
    unreadable := fun path' fault ha hl => ?_
    invalid := fun path' lines ha hl => ?_
    ran := fun path' p r ha hl => ?_ }
  · cases ha
    cases h.symm.trans hl
    exact ⟨rfl, rfl⟩
  · cases ha
    cases h.symm.trans hl
    exact ⟨rfl, rfl⟩
  · cases loaded_eq h ha hl

/-- A program that is loaded is run, and the report tells of this run. -/
theorem accounts_run {code : UInt32} {errors : List String} (h : load (read path) = .ok p)
    (hr : execution p = Part.some r)
    (hending : Told path r.ending code errors) :
    Accounts [path] read code errors (decimalLines r.sink.toList) := by
  have hsucceeds : Succeeds [path] read ↔ r.ending = .stopped := by
    constructor
    · rintro ⟨path', p', r', ha, hl, hr', hstopped⟩
      cases loaded_eq h ha hl
      cases Part.some_injective (hr.symm.trans hr')
      exact hstopped
    · intro hstopped
      exact ⟨path, p, r, rfl, h, hr, hstopped⟩
  have hone : (1 : UInt32) ≠ 0 := by decide
  refine {
    success_iff := ?_
    failure := fun hnot => ?_
    usage := fun ha => absurd rfl ha
    unreadable := fun path' fault ha hl => ?_
    invalid := fun path' lines ha hl => ?_
    ran := fun path' p' r' ha hl hr' => ?_ }
  · rw [hsucceeds]
    rcases hending with ⟨hstopped, hcode, herrors⟩ | ⟨f, hfailed, hcode, -⟩
    · exact iff_of_true ⟨hcode, herrors⟩ hstopped
    · rw [hcode, hfailed]
      exact iff_of_false (fun hs => hone hs.1) Ending.noConfusion
  · rcases hending with ⟨hstopped, -⟩ | ⟨f, -, hcode, -⟩
    · exact absurd (hsucceeds.2 hstopped) hnot
    · exact hcode
  · cases loaded_eq h ha hl
  · cases loaded_eq h ha hl
  · cases ha
    cases h.symm.trans hl
    cases Part.some_injective (hr.symm.trans hr')
    refine ⟨rfl, fun f hf => ?_⟩
    rcases hending with ⟨hstopped, -⟩ | ⟨g, hfailed, -, herrors⟩
    · cases hf.symm.trans hstopped
    · cases hf.symm.trans hfailed
      exact herrors

theorem run_one (setting : Option String) : Id.run (run [path] setting read) =
    (startFile (threshold setting) path (read path)).finish := rfl

theorem run_of_length_ne (h : args.length ≠ 1) (setting : Option String) :
    Id.run (run args setting read) =
      some (Report.failure #[] ["usage: ls8 <object-file>"]) := by
  match args with
  | [] => rfl
  | [_] => exact absurd rfl h
  | _ :: _ :: _ => rfl

/-- The setting decides on the records, and on nothing else. -/
theorem run_eq_map_restrict (setting : Option String) : Id.run (run args setting read) =
    (Id.run (run args (some "trace") read)).map (Report.restrict (threshold setting)) := by
  by_cases h : args.length = 1
  · obtain ⟨path, rfl⟩ := List.length_eq_one_iff.1 h
    rw [run_one, run_one]
    exact finish_startFile (threshold setting)
  · rw [run_of_length_ne h, run_of_length_ne h]
    rfl

theorem exists_report_of_error {e : LoadError} (h : load (read path) = .error e) :
    ∃ report, (startFile (.upTo .trace) path (read path)).finish = some report ∧
      Accounts [path] read report.code report.errors report.printed := by
  rw [startFile_error _ h]
  refine ⟨_, rfl, ?_⟩
  have hvalues : ∀ (records : List Record) errors, (Report.failure (append (.upTo .trace) #[]
      (records.map .record)) errors).values = [] :=
    fun records _ => values_append_records #[] records
  rw [Report.printed_eq, hvalues]
  exact accounts_error h

theorem exists_report_of_ok (h : load (read path) = .ok p) (hr : execution p = Part.some r) :
    ∃ report, (startFile (.upTo .trace) path (read path)).finish = some report ∧
      Accounts [path] read report.code report.errors report.printed := by
  have hnone : (append (.upTo .trace) (append (.upTo .trace) #[]
      ((loadRecords (.ok p)).map .record)) (p.memory.records.map .record)).toList.filterMap
        Item.value? = [] := by
    rw [values_append_records, values_append_records]
    rfl
  obtain ⟨report, hreport, hvalues, hending⟩ := exists_report_of_execution _ hr hnone
  refine ⟨report, ?_, ?_⟩
  · rw [startFile_ok _ h]
    exact hreport
  · rw [Report.printed_eq, hvalues]
    exact accounts_run h hr hending

/-- There is a report of a command whose program ends, if it comes to run one. -/
theorem exists_report (hends : ∀ path p, args = [path] → load (read path) = .ok p →
    (execution p).Dom) :
    ∃ report, Id.run (run args (some "trace") read) = some report ∧
      Accounts args read report.code report.errors report.printed := by
  by_cases h : args.length = 1
  · obtain ⟨path, rfl⟩ := List.length_eq_one_iff.1 h
    cases hload : load (read path) with
    | error e => exact exists_report_of_error hload
    | ok p =>
      obtain ⟨r, hr⟩ := Part.dom_iff_mem.1 (hends path p rfl hload)
      exact exists_report_of_ok hload (Part.eq_some_iff.2 hr)
  · exact ⟨_, run_of_length_ne h _, accounts_usage h⟩

/-- What is put on record at the threshold `trace`, by the arguments and the files: that a file was
loaded or not, what the memory holds, and the log of the run. -/
structure Logs (args : List String) (read : String → Except ReadFault ByteArray)
    (records : List Record) : Prop where
  usage : args.length ≠ 1 → records = []
  unreadable : ∀ path fault, args = [path] → load (read path) = .error (.unreadable fault) →
    records = []
  invalid : ∀ path lines, args = [path] → load (read path) = .error (.invalid lines) →
    records = [.rejected lines.length]
  ran : ∀ path p, args = [path] → load (read path) = .ok p →
    ∃ last, (Machine.new p.memory).logged (.upTo .trace) (#[] : Array Byte) = Part.some last ∧
      records = .loaded p.size :: p.memory.records ++ last.seen

theorem logs_usage (h : args.length ≠ 1) : Logs args read [] := by
  have hargs := ne_singleton_of_length_ne h
  exact {
    usage := fun _ => rfl
    unreadable := fun path _ ha => absurd ha (hargs path)
    invalid := fun path _ ha => absurd ha (hargs path)
    ran := fun path _ ha => absurd ha (hargs path) }

theorem logs_error {e : LoadError} (h : load (read path) = .error e) :
    Logs [path] read (loadRecords (.error e)) := by
  refine {
    usage := fun ha => absurd rfl ha
    unreadable := fun path' fault ha hl => ?_
    invalid := fun path' lines ha hl => ?_
    ran := fun path' p ha hl => ?_ }
  · cases loaded_eq h ha hl
    rfl
  · cases loaded_eq h ha hl
    rfl
  · cases loaded_eq h ha hl

theorem logs_run {last : Run (Array Byte) (List Record)} (h : load (read path) = .ok p)
    (hlast : (Machine.new p.memory).logged (.upTo .trace) (#[] : Array Byte) = Part.some last) :
    Logs [path] read (.loaded p.size :: p.memory.records ++ last.seen) := by
  refine {
    usage := fun ha => absurd rfl ha
    unreadable := fun path' fault ha hl => ?_
    invalid := fun path' lines ha hl => ?_
    ran := fun path' p' ha hl => ?_ }
  · cases loaded_eq h ha hl
  · cases loaded_eq h ha hl
  · cases loaded_eq h ha hl
    exact ⟨last, hlast, rfl⟩

/-- The records of a report are those of loading the file and running the program. -/
theorem logs_of_report {full : Report} (h : Id.run (run args (some "trace") read) = some full) :
    Logs args read full.records := by
  by_cases hargs : args.length = 1
  · obtain ⟨path, rfl⟩ := List.length_eq_one_iff.1 hargs
    have hfinish : (startFile (.upTo .trace) path (read path)).finish = some full := h
    have hloaded : ∀ loaded, recorded (append (.upTo .trace) #[]
        ((loadRecords loaded).map .record)) = loadRecords loaded := by
      intro loaded
      rw [recorded_append_records, Threshold.select_trace]
      rfl
    cases hload : load (read path) with
    | error e =>
      rw [startFile_error _ hload] at hfinish
      obtain rfl := Option.some.inj hfinish
      rw [Report.records, Report.failure, hloaded]
      exact logs_error hload
    | ok p =>
      rw [startFile_ok _ hload] at hfinish
      obtain ⟨last, hlogged, hrecords⟩ := exists_logged_of_report hfinish
      rw [recorded_append_records, hloaded, Threshold.select_trace] at hrecords
      rw [hrecords]
      exact logs_run hload hlogged
  · rw [run_of_length_ne hargs] at h
    obtain rfl := Option.some.inj h
    exact logs_usage hargs

/-- **The command loads the file and runs the program.**  Take any arguments and files, such that
the program, if one is loaded, halts or fails.  Whatever the setting, there is a report; it has
the code 0 and no message exactly if there is one argument, its file is loaded and the run of the
program halts, and the code 1 otherwise.  Without the lines of the records, it prints the values
that the run collects, also if the run fails, and nothing if no program is loaded.  Its messages
are those of the first thing that went wrong.  Code, messages and values are the same with every
setting.  With the setting `trace` all is put on record that is told of the file, the memory and
the run.  Every setting stands for one threshold, and its output is that of the setting `trace`
without the records of the levels that are not shown at this threshold. -/
theorem run_composes_load_and_execution (args : List String)
    (read : String → Except ReadFault ByteArray)
    (hends : ∀ path p, args = [path] → load (read path) = .ok p → (execution p).Dom) :
    ∃ full : Report, Id.run (run args (some "trace") read) = some full ∧
      Logs args read full.records ∧
      ∀ setting, ∃ t, (∀ u, Sets setting u ↔ u = t) ∧
        ∃ report : Report, Id.run (run args setting read) = some report ∧
          Accounts args read report.code report.errors report.printed ∧
          report.code = full.code ∧ report.errors = full.errors ∧
          report.output = full.output.filter (fun i => i.record?.all fun r => r.level ∈ t.levels) ∧
          report.records = full.records.filter fun r => r.level ∈ t.levels := by
  obtain ⟨full, hfull, haccounts⟩ := exists_report hends
  refine ⟨full, hfull, logs_of_report hfull, fun setting => ⟨threshold setting, fun u => sets_iff,
    full.restrict (threshold setting), ?_, ?_, rfl, rfl, ?_, ?_⟩⟩
  · rw [run_eq_map_restrict, hfull]
    rfl
  · rw [Report.printed_eq, Report.values_restrict, ← Report.printed_eq]
    exact haccounts
  · exact congrArg full.output.filter (funext fun i => passes_eq _ i)
  · rw [Report.records_restrict, Threshold.select_eq_filter]

/-- `PRN R7` and then a byte that is no opcode. -/
def printAndFail : Program := ⟨Memory.zero.writeAll 0 [0x47, 0x07, 0xFF], 3⟩

/-- A directory with this program in a file. -/
def printAndFailTree : FileTree := .ofWorking [] [(["p.ls8"],
  (String.ofList (render (fun _ => false) (fun _ => 0) [0x47, 0x07, 0xFF])).toUTF8)]

/-- Settings, and what is shown of the records with them. -/
def printAndFailShown : List (Option String × List String) :=
  [(none, []), (some "oFF", []), (some "loud", []), (some "Info", []),
    (some "DEBUG", ["DEBUG Loaded 3 bytes",
      "DEBUG 00: 47 07 FF 00 00 00 00 00 00 00 00 00 00 00 00 00", "DEBUG PRN R7: 244"]),
    (some "trace", ["DEBUG Loaded 3 bytes",
      "DEBUG 00: 47 07 FF 00 00 00 00 00 00 00 00 00 00 00 00 00",
      "TRACE TRACE: 00 | 47 07 FF | 00 00 00 00 00 00 00 F4", "DEBUG PRN R7: 244",
      "TRACE TRACE: 02 | FF 00 00 | 00 00 00 00 00 00 00 F4"])]

theorem run_composes_load_and_execution_printAndFail :
    load (printAndFailTree.read "p.ls8") = .ok printAndFail ∧
      ∀ shown ∈ printAndFailShown, ∃ report : Report,
        Id.run (run ["p.ls8"] shown.1 printAndFailTree.read) = some report ∧
          report.code = 1 ∧ report.printed = "244\n" ∧
          report.errors = ["`p.ls8` stopped with an error",
            "unsupported operation `0b11111111` at 0x02"] ∧
          report.records.map Record.brief = shown.2 := by
  have hload : load (printAndFailTree.read "p.ls8") = .ok printAndFail := by
    have hread : printAndFailTree.read "p.ls8" = .ok (String.ofList
        (render (fun _ => false) (fun _ => 0) [0x47, 0x07, 0xFF])).toUTF8 := rfl
    rw [hread, load_toUTF8, String.toList_ofList,
      parse_written_ok .zero (written_render _ _ _) (by decide)]
    rfl
  have hends : (Machine.new printAndFail.memory).EndsAt (#[] : Array Byte) 1 := by
    refine ⟨.inl ⟨⟨.unsupportedOperation 0xFF, 2⟩, rfl⟩, fun j hj => ?_⟩
    obtain rfl : j = 0 := Nat.lt_one_iff.1 hj
    exact Step.not_ends_iff.2 ⟨⟨.printed 7 0xF4, rfl⟩, rfl⟩
  have hexecution : execution printAndFail = Part.some _ := Machine.run_eq_runUpTo _ rfl hends ()
  have hdom : ∀ path p, ["p.ls8"] = [path] → load (printAndFailTree.read path) = .ok p →
      (execution p).Dom := by
    intro path p ha hp
    cases ha
    cases hload.symm.trans hp
    rw [hexecution]
    trivial
  obtain ⟨full, -, hlogs, hreport⟩ :=
    run_composes_load_and_execution ["p.ls8"] printAndFailTree.read hdom
  obtain ⟨last, hlast, hrecords⟩ := hlogs.ran "p.ls8" printAndFail rfl hload
  have hlogged := congrArg (Part.map (Run.close (.upTo .trace)))
    (Machine.run_eq_runUpTo (keep (.upTo .trace)) rfl hends [])
  obtain rfl := Part.some_injective (hlast.symm.trans (hlogged.trans (Part.map_some ..)))
  have hlines : ∀ shown ∈ printAndFailShown, (full.records.filter fun r =>
      r.level ∈ (threshold shown.1).levels).map Record.brief = shown.2 := by
    rw [hrecords]
    decide +kernel
  refine ⟨hload, fun shown hshown => ?_⟩
  obtain ⟨t, ht, report, hrun, haccounts, -, -, -, hshows⟩ := hreport shown.1
  obtain rfl := (ht _).1 (sets_iff.2 rfl)
  obtain ⟨hprinted, herrors⟩ := haccounts.ran "p.ls8" printAndFail _ rfl hload hexecution
  have hcode : report.code = 1 := by
    refine haccounts.failure ?_
    rintro ⟨path, p, r, ha, hp, hr, hstopped⟩
    cases ha
    cases hload.symm.trans hp
    cases Part.some_injective (hexecution.symm.trans hr)
    cases hstopped
  refine ⟨report, hrun, hcode, ?_, ?_, hshows ▸ hlines shown hshown⟩
  · rw [hprinted]
    decide
  · rw [herrors _ rfl]
    decide

end CommandLine

end ByteMachine
