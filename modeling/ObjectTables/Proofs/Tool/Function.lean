import ObjectTables.Proofs.Abreast
import ObjectTables.Proofs.Tool.Rehearsal

/-! Tools that are functions: what comes of a call depends on the call, and on what the files hold that its arguments
    name. Rehearsed tools without deeds are (`functional`). -/

namespace ObjectTables

open FileTree

/-- Two trees show a call the same: in the files that its arguments name, and in what stands on the way of its output
    and in its place, so that the output can be written in both or fails to be in the same way. -/
structure Call.ShownAlike (directory : Location) (call : Call) (t u : FileTree) : Prop where
  arguments : ∀ a ∈ call.arguments, (t.read directory a).toOption = (u.read directory a).toOption
  way : Agree (FileTree.way directory call.output) t u
  output : ∀ l, target directory call.output <+: l → t.get? l = u.get? l

/-- A tool that touches nothing but its output file, and whose result and output are a function of its call and of what
    it is shown. -/
structure Tool.Functional (directory : Location) (tool : Tool) : Prop where
  confined : tool.Confined directory
  determined : ∀ (call : Call) (t u : FileTree), call.ShownAlike directory t u →
    ((tool call).run t).1 = ((tool call).run u).1 ∧
      ∀ l, target directory call.output <+: l → ((tool call).run t).2.get? l = ((tool call).run u).2.get? l

namespace Rehearsal

variable {directory : Location} {plans : Plans} {call : Call} {t u : FileTree}

theorem argumentContent_congr (h : ∀ a ∈ call.arguments, (t.read directory a).toOption = (u.read directory a).toOption)
    (argument : Nat) : argumentContent directory t call argument = argumentContent directory u call argument := by
  rw [argumentContent, argumentContent]
  cases ha : call.arguments[argument]? with
  | none => rfl
  | some path =>
    have hread := h path (List.mem_of_getElem? ha)
    dsimp only
    cases ht : t.read directory path with
    | ok x =>
      cases hu : u.read directory path with
      | ok y =>
        rw [ht, hu] at hread
        exact Option.some.inj hread
      | error e =>
        rw [ht, hu] at hread
        cases hread
    | error e =>
      cases hu : u.read directory path with
      | ok y =>
        rw [ht, hu] at hread
        cases hread
      | error e' => rfl

theorem content_congr (h : ∀ a ∈ call.arguments, (t.read directory a).toOption = (u.read directory a).toOption)
    (part : Part) : part.content directory t call = part.content directory u call := by
  cases part with
  | literal content => rfl
  | copy argument => exact argumentContent_congr h argument
  | each argument template => rw [Part.content, Part.content, argumentContent_congr h]

theorem together_end (call : Call) (outcome : Outcome) : Together (Abreast []) (fun _ _ => True) (fun _ _ => True)
    (match outcome with
      | .doesNotStart cause => throw (.start call.program cause)
      | .exits code stderr =>
        if code = 0 then pure ⟨call.output, stderr⟩ else throw (.tool call.program code stderr) :
      Change Failure Completion) := by
  cases outcome with
  | doesNotStart cause => exact Together.throw (Abreast.refl []) _
  | exits code stderr =>
    dsimp only
    split
    · exact Together.pure (Abreast.refl []) _
    · exact Together.throw (Abreast.refl []) _

theorem together_output (directory : Location) (call : Call) (parts : List Part) :
    Together (Abreast []) (call.ShownAlike directory) (fun _ _ => True)
      (Change.make fun t => t.write directory call.output (parts.flatMap (·.content directory t call))) := by
  refine Change.together_make (Abreast.refl []) fun t u h => ?_
  have hcontent : parts.flatMap (·.content directory t call) = parts.flatMap (·.content directory u call) :=
    congrArg (parts.flatMap ·) (funext (content_congr h.arguments))
  have hnone : target directory call.output ∉ ([] : List Location) := List.not_mem_nil
  rw [hcontent]
  rcases write_abreast h.way (Or.inr (h.output _ List.prefix_rfl)) (fun hmem => absurd hmem hnone)
    (parts.flatMap (·.content directory u call)) with hfail | ⟨t', u', ht, hu, hstep, -⟩
  · exact Or.inl hfail
  · exact Or.inr ⟨t', u', ht, hu, hstep, trivial⟩

/-- A tool whose plans have no deeds is a function of its call and of what its arguments name. -/
theorem functional (h : ∀ stage, (plans.plan stage).deeds = []) : (tool directory plans).Functional directory := by
  refine ⟨confined h, fun call t u hshown => ?_⟩
  have htool : Together (Abreast []) (call.ShownAlike directory) (fun _ _ => True) (tool directory plans call) := by
    rw [tool]
    dsimp only
    rw [h, List.forIn_nil]
    split
    · refine Together.bind (Change.together_adapt (together_output directory call _) _) (Abreast.trans_all []) fun _ => ?_
      exact together_end call _
    · exact (together_end call _).weaken (fun _ _ _ => trivial) fun _ _ h => h
  obtain ⟨hresult, hstep, -⟩ := htool t u hshown
  exact ⟨hresult, fun l hl => hstep.get? (hshown.output l hl)⟩

end Rehearsal

end ObjectTables
