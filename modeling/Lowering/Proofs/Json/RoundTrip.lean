import Lowering.Proofs.Json.Machine
import Lowering.Proofs.Json.Ssa

/-!
# Functions written and read again

A function of either stage is read back from what is written for it exactly if its numbers have their
widths, as those of every function that was read have.  So what is written for a function that was
read is written again unchanged.
-/

namespace Lowering.Json

/-- What is read is restored from its written form, so reading and writing settle after one turn. -/
theorem rewritten_of_read {α : Type} {write : α → Json} {read : Json → Option α} {P : α → Prop}
    (restores : ∀ a, P a → Restores write read a) (yields : Yields read P) {json : Json} {a : α}
    (found : read json = some a) : (read (write a)).map write = some (write a) := by
  rw [restores a (yields json a found) _ (.refl _)]
  rfl

/-- Writing a function and reading it restores it, whatever the order of the members, if and only if its
numbers have their widths; what was read once is a fixed point of reading and writing. -/
theorem functions_restored :
    (∀ (f : Ssa.Func) (json : Json), f.toJson.Reorders json →
      (Ssa.Func.ofJson? json = some f ↔ f.InRange)) ∧
    (∀ (f : Machine.Func) (json : Json), f.toJson.Reorders json →
      (Machine.Func.ofJson? json = some f ↔ f.InRange)) ∧
    (∀ (json : Json) (f : Ssa.Func), Ssa.Func.ofJson? json = some f →
      (Ssa.Func.ofJson? f.toJson).map Ssa.Func.toJson = some f.toJson) ∧
    ∀ (json : Json) (f : Machine.Func), Machine.Func.ofJson? json = some f →
      (Machine.Func.ofJson? f.toJson).map Machine.Func.toJson = some f.toJson := by
  refine ⟨fun f json written => ?_, fun f json written => ?_, fun json f found => ?_,
    fun json f found => ?_⟩
  · exact ⟨Ssa.Func.yields json f, fun inRange => Ssa.Func.restores inRange json written⟩
  · exact ⟨Machine.Func.yields json f, fun inRange => Machine.Func.restores inRange json written⟩
  · exact rewritten_of_read (fun _ => Ssa.Func.restores) Ssa.Func.yields found
  · exact rewritten_of_read (fun _ => Machine.Func.restores) Machine.Func.yields found

/-- The least and the greatest numbers, a call for its effect and a return of nothing. -/
def merging : Ssa.Func where
  name := "merging"
  params := [4294967295]
  blocks :=
    [ { name := "entry"
        phis := [⟨7, .ofList [(9, .const (-9223372036854775808)), (10, .undef)]⟩]
        insts := [.call none "note" [.const 9223372036854775807]]
        term := .ret none } ]
  nextValue := 4294967295

/-- The function with the members of every object from the last to the first. -/
def mergingJson : Json :=
  obj
    [ ("next_value", int 4294967295),
      ("blocks", arr [obj
        [ ("term", tagged "Ret" null),
          ("insts", arr [tagged "Call" (obj
            [ ("args", arr [tagged "Const" (int 9223372036854775807)]), ("callee", str "note"),
              ("dest", null) ])]),
          ("phis", arr [obj
            [ ("incoming", obj
                [("10", str "Undef"), ("9", tagged "Const" (int (-9223372036854775808)))]),
              ("dest", int 7) ]]),
          ("name", str "entry") ]]),
      ("params", arr [int 4294967295]),
      ("name", str "merging") ]

theorem reorders_reversed {members reversed : List (String × Json)}
    (names : reversed.reverse.map Prod.fst = members.map Prod.fst)
    (values : List.Forall₂ Reorders (members.map Prod.snd) (reversed.reverse.map Prod.snd)) :
    Reorders (obj members) (obj reversed) :=
  .obj names values (List.reverse_perm reversed)

theorem reorders_mergingJson : merging.toJson.Reorders mergingJson := by
  refine reorders_reversed rfl (.cons (.refl _) (.cons (.refl _)
    (.cons (.arr (.cons ?block .nil)) (.cons (.refl _) .nil))))
  refine reorders_reversed rfl (.cons (.refl _) (.cons (.arr (.cons ?phi .nil))
    (.cons (.arr (.cons ?call .nil)) (.cons (.refl _) .nil))))
  case phi =>
    refine reorders_reversed rfl (.cons (.refl _) (.cons ?incoming .nil))
    exact reorders_reversed rfl (.cons (.refl _) (.cons (.refl _) .nil))
  case call =>
    refine reorders_reversed rfl (.cons ?record .nil)
    exact reorders_reversed rfl (.cons (.refl _) (.cons (.refl _) (.cons (.refl _) .nil)))

def saturated : Machine.Func where
  name := "saturated"
  blocks :=
    [ { label := "entry"
        instrs :=
          [ .li (.virtual 4294967294) (-2147483648),
            .move (.physical .ra) (.spilled 18446744073709551615) ]
        term := .jump 18446744073709551615 } ]
  slots := 18446744073709551615
  nextVirtual := 4294967295

theorem functions_restored_merging :
    merging.toJson.Reorders mergingJson ∧ merging.InRange ∧
      Ssa.Func.ofJson? mergingJson = some merging ∧
      saturated.InRange ∧ Machine.Func.ofJson? saturated.toJson = some saturated ∧
      (Ssa.Func.ofJson? merging.toJson).map Ssa.Func.toJson = some merging.toJson ∧
      (Machine.Func.ofJson? saturated.toJson).map Machine.Func.toJson = some saturated.toJson := by
  have inRange : merging.InRange := by
    refine ⟨by decide, List.forall_mem_singleton.mpr ⟨?phis, ?insts, nofun⟩, by decide⟩
    case phis =>
      have entries : (Ssa.Incoming.ofList [(9, Ssa.Operand.const (-9223372036854775808)),
          (10, .undef)]).entries = [(9, .const (-9223372036854775808)), (10, .undef)] := rfl
      refine List.forall_mem_singleton.mpr ⟨by decide, ?_⟩
      simp [entries, Ssa.Operand.InRange, Width.bound]
    case insts => simp [Ssa.Inst.InRange, Ssa.Operand.InRange]
  have saturatedInRange : saturated.InRange := by
    refine ⟨List.forall_mem_singleton.mpr ⟨?instrs, ?term⟩, by decide, by decide⟩
    case instrs =>
      simp [Machine.Instr.InRange, Reg.InRange, Machine.Immediate, Width.bound]
    case term => simp [Machine.Terminator.InRange, Width.bound]
  obtain ⟨ssa, machine, ssaAgain, machineAgain⟩ := functions_restored
  have restored := (ssa merging _ reorders_mergingJson).mpr inRange
  have saturatedRestored := (machine saturated _ (.refl _)).mpr saturatedInRange
  exact ⟨reorders_mergingJson, inRange, restored, saturatedInRange, saturatedRestored,
    ssaAgain _ _ restored, machineAgain _ _ saturatedRestored⟩

end Lowering.Json
