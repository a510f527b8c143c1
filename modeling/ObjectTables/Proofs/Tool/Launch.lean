import ObjectTables.Proofs.Regeneration.Conduct

/-! Processes as tools. A call comes to what its process came to: it succeeds if the process has exited with zero, and
    fails as a tool if it has ended otherwise (`result_of_ended`). It fails so for no other reason
    (`ended_of_result`). -/

namespace ObjectTables

namespace CallRecord

variable {launch : Launch} {directory output : Location} {r : CallRecord} {ending : Ending} {stderr : Bytes}

/-- The process of a call was started, ended so and wrote this to its standard error. -/
def Ended (launch : Launch) (directory : Location) (r : CallRecord) (ending : Ending) (stderr : Bytes) : Prop :=
  ∃ output, r.found.writable directory r.call.output = .ok output ∧
    ((launch r.call.program r.call.arguments output).run (r.found.setFile output [])).1 = .ok (ending, stderr)

/-- What a call comes to when its process has ended. -/
def verdict (r : CallRecord) (said : Text) : Ending → Except Failure Completion
  | .exited status =>
    if status = 0 then .ok ⟨r.call.output, said⟩ else .error (.tool r.call.program status.toNat said)
  | .killed => .error (.tool r.call.program killedCode said)

theorem run_writable (r : CallRecord) (directory : Location) :
    ((Change.look (·.writable directory r.call.output)).adapt (Failure.write r.call.output)).run r.found =
      ((r.found.writable directory r.call.output).mapError (Failure.write r.call.output), r.found) := by
  rw [Change.run_adapt, Change.run_look]

theorem run_emptied (r : CallRecord) (output : Location) :
    (modify (·.setFile output []) : Change Failure Unit).run r.found = (.ok (), r.found.setFile output []) := rfl

/-- A call comes to what its process came to. -/
theorem result_of_ended (h : r.Ended launch directory ending stderr) :
    r.result (launch.tool directory) = r.verdict (Bytes.decodeLossy stderr) ending := by
  obtain ⟨output, hwritable, hended⟩ := h
  have hopened := run_writable r directory
  have hlaunch := Change.run_adapt (Failure.start r.call.program) (launch r.call.program r.call.arguments output)
    (r.found.setFile output [])
  rw [hwritable] at hopened
  rw [hended] at hlaunch
  rw [result, Launch.tool, run_bind_of_ok hopened, run_bind_of_ok (run_emptied r output), run_bind_of_ok hlaunch]
  cases ending with
  | killed => rfl
  | exited status =>
    rw [verdict]
    by_cases hstatus : status = 0
    · simp only [if_pos hstatus]
      rfl
    · simp only [if_neg hstatus]
      rfl

/-- If a call fails as a tool, its process has ended, and without success. -/
theorem ended_of_result {program : String} {code : Int} {said : Text}
    (h : r.result (launch.tool directory) = .error (.tool program code said)) :
    ∃ ending stderr, r.Ended launch directory ending stderr ∧ said = Bytes.decodeLossy stderr ∧
      ((∃ status, ending = .exited status ∧ status ≠ 0 ∧ code = status.toNat) ∨
        ending = .killed ∧ code = killedCode) := by
  rcases hwritable : r.found.writable directory r.call.output with e | output
  · have hopened := run_writable r directory
    rw [hwritable] at hopened
    rw [result, Launch.tool, run_bind_of_error hopened] at h
    cases h
  have hopened := run_writable r directory
  rw [hwritable] at hopened
  rcases hended : ((launch r.call.program r.call.arguments output).run (r.found.setFile output [])).1 with
    e | ⟨ending, stderr⟩
  · have hlaunch := Change.run_adapt (Failure.start r.call.program) (launch r.call.program r.call.arguments output)
      (r.found.setFile output [])
    rw [hended] at hlaunch
    rw [result, Launch.tool, run_bind_of_ok hopened, run_bind_of_ok (run_emptied r output),
      run_bind_of_error hlaunch] at h
    cases h
  · have hprocess : r.Ended launch directory ending stderr := ⟨output, hwritable, hended⟩
    rw [result_of_ended hprocess] at h
    refine ⟨ending, stderr, hprocess, ?_⟩
    cases ending with
    | killed =>
      cases h
      exact ⟨rfl, Or.inr ⟨rfl, rfl⟩⟩
    | exited status =>
      rw [verdict] at h
      split at h
      · cases h
      · next hstatus =>
        cases h
        exact ⟨rfl, Or.inl ⟨status, rfl, hstatus, rfl⟩⟩

end CallRecord

end ObjectTables
