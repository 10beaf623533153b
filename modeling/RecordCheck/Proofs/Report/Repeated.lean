import RecordCheck.Proofs.Report.Choosing
import RecordCheck.Proofs.Validator.Sessions

/-!
# Issues of records, again and again

A checker that uses an engine, or failures that depend on schema and record alone, has one issue for a
record by a regular schema in all sessions that are alike: it does not matter which validators are kept
and which documents are loaded.
-/

namespace RecordCheck

set_option autoImplicit false

open Effects

/-- The failures are those that the engine lists, or they depend on schema and record alone. -/
inductive Checker.Over (e : Engine) : Checker → Prop where
  | engine (formats : FormatSet) (dir : Option String) : Over e ⟨e.run, formats, dir⟩
  | fixed (failures : SchemaNode → Json → Except SchemaFault (List Failure)) (formats : FormatSet)
      (dir : Option String) : Over e ⟨fun schema record s => (failures schema record, s), formats, dir⟩

section

variable {e : Engine} {c : Checker} {schema : SchemaNode} {record : Json} {s : Session}

theorem Checker.Over.uniform_failures (h : c.Over e) (hschema : schema.Regular) (record : Json) :
    Uniform e.likeness (fun _ => True) (c.failures schema record) := by
  cases h with
  | engine formats dir =>
    have hanswer := e.admits_uniform.answer (q := .first schema record) hschema
    rwa [← Engine.run_eq_answer] at hanswer
  | fixed failures formats dir => exact ⟨fun hs => hs, fun _ => rfl, fun _ _ => trivial⟩

/-- What failures come to depends on what the store answers only. -/
theorem Failure.issue?_alike (fs : List Failure) (record : Json) (formats : FormatSet)
    {st st' : Store} (hschema : schema.Regular) (hst : st.Agrees st') :
    (issue? fs record schema formats st).1 = (issue? fs record schema formats st').1 ∧
      st.Agrees (issue? fs record schema formats st).2 ∧
      st.Extends (issue? fs record schema formats st).2 := by
  cases fs with
  | nil => exact ⟨rfl, .refl st, .refl st⟩
  | cons f rest =>
    refine ⟨?_, store_of_resolvedWithin hschema⟩
    exact congrArg (fun g : Failure => some (g.issue formats)) (resolvedWithin_alike hschema hst)

theorem Checker.Over.uniform_issue? (h : c.Over e) (hschema : schema.Regular) (record : Json) :
    Uniform e.likeness (fun _ => True) (c.issue? schema record) := by
  refine (h.uniform_failures hschema record).bind fun fs _ => ⟨?_, ?_, fun _ _ => trivial⟩
  · intro s hs
    obtain ⟨-, hagrees, hextends⟩ :=
      Failure.issue?_alike fs record c.formats hschema hs.1
    exact ⟨hagrees, hs.2.1, hs.2.1.mono hextends⟩
  · intro s t hst
    exact congrArg Except.ok (Failure.issue?_alike fs record c.formats hschema hst.1).1

end

end RecordCheck
