import StackScript.Proofs.TwoRuns.Lowering
import StackScript.Proofs.LabelClosure

namespace StackScript
namespace Module

variable {m m' : Module} {c : Catalog} {f : Fault}

theorem rejected_of_compile (h : m.compile c = .error f) : ∃ d, f = .rejected d := by
  have hr := isRefusal_of_compile h
  cases f with
  | rejected d => exact ⟨d, rfl⟩
  | dangling => cases hr

/-- Modules that differ in places only both become the same program, or both are refused with the
same problem and the same hint. -/
theorem compile_eq_of_unplaced (h : m.unplaced = m'.unplaced) (c : Catalog) :
    (∃ p, m.compile c = .ok p ∧ m'.compile c = .ok p) ∨
      ∃ d d', m.compile c = .error (.rejected d) ∧ m'.compile c = .error (.rejected d') ∧
        d.problem = d'.problem ∧ d.hint = d'.hint := by
  cases hm : m.compile c with
  | ok p =>
      have hu := compile_unplaced_eq_ok.mpr hm
      rw [h] at hu
      exact .inl ⟨p, rfl, compile_unplaced_eq_ok.mp hu⟩
  | error f =>
      obtain ⟨g, hg, hfg⟩ := compile_unplaced_of_error hm
      cases hm' : m'.compile c with
      | ok p =>
          rw [h, compile_unplaced_eq_ok.mpr hm'] at hg
          cases hg
      | error f' =>
          obtain ⟨g', hg', hfg'⟩ := compile_unplaced_of_error hm'
          obtain ⟨d, rfl⟩ := rejected_of_compile hm
          obtain ⟨d', rfl⟩ := rejected_of_compile hm'
          rw [h, hg'] at hg
          cases hg
          have hcause := Sum.inl.inj (hfg.trans hfg'.symm)
          exact .inr ⟨d, d', rfl, rfl, congrArg Prod.fst hcause, congrArg Prod.snd hcause⟩

def echo (line : UInt32) (ret : String) : Module :=
  ⟨[.define ⟨line, 1⟩ "echo" [⟨"n", some "SystemInt32"⟩] (some ret)
      [.branch ⟨line + 1, 5⟩
        (.call ⟨line + 1, 8⟩ (.name ⟨line + 1, 8⟩ "SystemBoolean") [.name ⟨line + 1, 9⟩ "n"])
        [.ret ⟨line + 2, 9⟩ (some (.name ⟨line + 2, 16⟩ "n"))] [.pass ⟨line + 3, 9⟩]]]⟩

theorem echo_compile_eq : (∀ ret, (echo 1 ret).unplaced = (echo 7 ret).unplaced) ∧
    (∃ p, (echo 1 "SystemInt32").compile scalars = .ok p ∧
      (echo 7 "SystemInt32").compile scalars = .ok p) ∧
    ∃ d d', (echo 1 "SystemUInt32").compile scalars = .error (.rejected d) ∧
      (echo 7 "SystemUInt32").compile scalars = .error (.rejected d') ∧ d.problem = d'.problem := by
  have hsame (ret : String) : (echo 1 ret).unplaced = (echo 7 ret).unplaced := rfl
  have hok : ((echo 1 "SystemInt32").compile scalars).isOk := by decide +kernel
  have hno : ((echo 1 "SystemUInt32").compile scalars).isOk = false := by decide +kernel
  refine ⟨hsame, ?_, ?_⟩
  · obtain h | ⟨d, _, hd, _⟩ := compile_eq_of_unplaced (hsame "SystemInt32") scalars
    · exact h
    · rw [hd] at hok
      cases hok
  · obtain ⟨p, hp, _⟩ | ⟨d, d', hd, hd', hp, _⟩ :=
      compile_eq_of_unplaced (hsame "SystemUInt32") scalars
    · rw [hp] at hno
      cases hno
    · exact ⟨d, d', hd, hd', hp⟩

end Module
end StackScript
