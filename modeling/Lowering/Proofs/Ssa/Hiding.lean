import Lowering.Proofs.Ssa.Execution

/-!
# States that agree outside of hidden slots

Two states agree outside of a list of slots that no value tells.  Stores to a hidden slot on one side,
and the same store or call on both sides, keep the agreement.
-/

namespace Lowering.Ssa

variable {I : Interpretation} {slots : List Nat}

/-- The value tells none of the slots. -/
def Interpretation.Blind (I : Interpretation) (slots : List Nat) (x : I.Val) : Prop :=
  ∀ slot ∈ slots, ¬ I.mentions x slot

/-- Does the event happen outside of the slots? -/
def Interpretation.outside (I : Interpretation) (slots : List Nat) : Event I.Val → Bool
  | .call _ _ => true
  | .store address _ => slots.all fun slot => address ≠ I.slot slot

/-- The events outside of the slots. -/
def Interpretation.view (I : Interpretation) (slots : List Nat) (trace : List (Event I.Val)) :
    List (Event I.Val) :=
  trace.filter (I.outside slots)

namespace Interpretation

theorem Blind.ne_slot {x : I.Val} (blind : I.Blind slots x) {slot : Nat} (member : slot ∈ slots) :
    x ≠ I.slot slot := by
  rintro rfl
  exact blind slot member ((I.mentions_slot slot slot).mpr rfl)

theorem slot_injective {a b : Nat} (same : I.slot a = I.slot b) : a = b :=
  (I.mentions_slot a b).mp (same ▸ (I.mentions_slot b b).mpr rfl)

theorem blind_const (c : Int) : I.Blind slots (I.const c) := fun slot _ => I.mentions_const c slot

theorem blind_undef : I.Blind slots I.undef := fun slot _ => I.mentions_undef slot

theorem blind_slot {made : Nat} (free : made ∉ slots) : I.Blind slots (I.slot made) :=
  fun slot member told => free ((I.mentions_slot made slot).mp told ▸ member)

theorem view_append (trace : List (Event I.Val)) (event : Event I.Val) :
    I.view slots (trace ++ [event]) =
      I.view slots trace ++ if I.outside slots event then [event] else [] := by
  unfold view
  rw [List.filter_append, List.filter_cons, List.filter_nil]

@[simp]
theorem view_nil : I.view [] = id :=
  funext fun trace => List.filter_eq_self.mpr fun event _ => by cases event <;> rfl

end Interpretation

/-- Two executions stop with the same events outside of the slots, or go on to related states. -/
inductive Together (slots : List Nat) (related : State I → State I → Prop) :
    Execution I (State I) → Execution I (State I) → Prop where
  | stopped {trace : List (Event I.Val)} :
      Together slots related (.error trace) (.error (I.view slots trace))
  | ok {s t : State I} : related s t → Together slots related (.ok s) (.ok t)

theorem Together.imp {related other : State I → State I → Prop}
    {first second : Execution I (State I)} (together : Together slots related first second)
    (weaken : ∀ {s t}, related s t → other s t) : Together slots other first second := by
  cases together with
  | stopped => exact .stopped
  | ok holds => exact .ok (weaken holds)

theorem Together.bind {related other : State I → State I → Prop}
    {first second : Execution I (State I)} {next next' : State I → Execution I (State I)}
    (together : Together slots related first second)
    (goesOn : ∀ {s t}, related s t → Together slots other (next s) (next' t)) :
    Together slots other (first >>= next) (second >>= next') := by
  cases together with
  | stopped => exact .stopped
  | ok holds => exact goesOn holds

/-- No memory cell and nothing outside tells one of the slots. -/
def State.Hidden (slots : List Nat) (s : State I) : Prop :=
  Hides I.mentions I.knows (· ∈ slots) [] s.memory s.world

theorem State.Hidden.arguments {s : State I} (hidden : s.Hidden slots) {arguments : List I.Val}
    (blind : ∀ x ∈ arguments, I.Blind slots x) :
    Hides I.mentions I.knows (· ∈ slots) arguments s.memory s.world :=
  ⟨fun slot member x given => blind x given slot member, hidden.memory, hidden.world⟩

/-- Two states that agree outside of slots hidden in both. -/
structure State.Agree (slots : List Nat) (s t : State I) : Prop where
  memory : ∀ address, (∀ slot ∈ slots, address ≠ I.slot slot) → s.memory address = t.memory address
  world : t.world = s.world
  trace : t.trace = I.view slots s.trace
  first : s.Hidden slots
  second : t.Hidden slots

namespace State.Agree

variable {s t : State I} {x address : I.Val}

theorem env (agree : Agree slots s t) (first second : Nat → Option I.Val) :
    Agree slots { s with env := first } { t with env := second } :=
  ⟨agree.memory, agree.world, agree.trace, agree.first, agree.second⟩

/-- Both load the same from an address that tells no slot. -/
theorem load (agree : Agree slots s t) (blind : I.Blind slots address) :
    s.memory address = t.memory address ∧ I.Blind slots (s.memory address) :=
  ⟨agree.memory address fun _ member => blind.ne_slot member,
    fun slot member => agree.first.memory slot member address⟩

theorem hidden_store (hidden : s.Hidden slots) (blind : I.Blind slots x) (address : I.Val) :
    (s.store address x).Hidden slots := by
  refine ⟨fun _ _ _ none => absurd none List.not_mem_nil, ?_, hidden.world⟩
  intro slot member other
  show ¬ I.mentions (if other = address then x else s.memory other) slot
  split
  · exact blind slot member
  · exact hidden.memory slot member other

theorem store (agree : Agree slots s t) (blindAddress : I.Blind slots address)
    (blind : I.Blind slots x) : Agree slots (s.store address x) (t.store address x) where
  memory other apart := by
    show (if other = address then x else s.memory other) =
      if other = address then x else t.memory other
    rw [agree.memory other apart]
  world := agree.world
  trace := by
    have visible : I.outside slots (.store address x) = true :=
      List.all_eq_true.mpr fun slot member => decide_eq_true (blindAddress.ne_slot member)
    show t.trace ++ [.store address x] = I.view slots (s.trace ++ [.store address x])
    rw [Interpretation.view_append, if_pos visible, agree.trace]
  first := hidden_store agree.first blind address
  second := hidden_store agree.second blind address

/-- A store to a hidden slot is seen on neither side. -/
theorem storeSlot (agree : Agree slots s t) {slot : Nat} (member : slot ∈ slots)
    (blind : I.Blind slots x) : Agree slots (s.store (I.slot slot) x) t where
  memory other apart := by
    show (if other = I.slot slot then x else s.memory other) = t.memory other
    rw [if_neg (apart slot member), agree.memory other apart]
  world := agree.world
  trace := by
    have unseen : ¬ I.outside slots (.store (I.slot slot) x) = true := by
      intro visible
      exact of_decide_eq_true (List.all_eq_true.mp visible slot member) rfl
    show t.trace = I.view slots (s.trace ++ [.store (I.slot slot) x])
    rw [Interpretation.view_append, if_neg unseen, List.append_nil, agree.trace]
  first := hidden_store agree.first blind (I.slot slot)
  second := agree.second

/-- What a call does to two states that agree. -/
structure Called (slots : List Nat) (dest : Option Nat) (s t s' t' : State I) (result : I.Val) :
    Prop where
  agree : Agree slots s' t'
  blind : I.Blind slots result
  envFirst : ∀ v, s'.env v = if some v = dest then some result else s.env v
  envSecond : ∀ v, t'.env v = if some v = dest then some result else t.env v
  memory : ∀ slot ∈ slots, s'.memory (I.slot slot) = s.memory (I.slot slot)

/-- A call returns on both sides or on neither, with the same effect outside of the slots. -/
theorem call (agree : Agree slots s t) {arguments : List I.Val}
    (blind : ∀ x ∈ arguments, I.Blind slots x) (dest : Option Nat) (callee : String) :
    Together slots (fun s' t' => ∃ result, Called slots dest s t s' t' result)
      (s.call dest callee arguments) (t.call dest callee arguments) := by
  have visible : I.view slots (s.trace ++ [.call callee arguments]) =
      t.trace ++ [.call callee arguments] := by
    rw [Interpretation.view_append, agree.trace]
    rfl
  have hides := agree.first.arguments blind
  have hides' : Hides I.mentions I.knows (· ∈ slots) arguments t.memory s.world :=
    agree.world ▸ agree.second.arguments blind
  unfold State.call
  rw [agree.world, ← visible]
  cases called : I.call callee arguments s.memory s.world with
  | none =>
      cases called' : I.call callee arguments t.memory s.world with
      | none => exact .stopped
      | some effect =>
          obtain ⟨other, returned, _⟩ := I.call_local hides' hides
            (fun address apart => (agree.memory address apart).symm) called'
          rw [called] at returned
          cases returned
  | some effect =>
      obtain ⟨other, called', sameResult, sameWorld, sameMemory⟩ :=
        I.call_local hides hides' agree.memory called
      obtain ⟨kept, hidden⟩ := I.call_keeps hides called
      obtain ⟨_, hidden'⟩ := I.call_keeps hides' called'
      rw [called']
      refine .ok ⟨effect.result, ⟨sameMemory, sameWorld, rfl, ?_, ?_⟩, ?_, fun v => rfl, ?_, kept⟩
      · exact ⟨fun _ _ _ none => absurd none List.not_mem_nil, hidden.memory, hidden.world⟩
      · exact ⟨fun _ _ _ none => absurd none List.not_mem_nil, hidden'.memory, hidden'.world⟩
      · exact fun slot member => hidden.arguments slot member _ (List.mem_singleton_self _)
      · rw [← sameResult]
        exact fun v => rfl

end State.Agree

end Lowering.Ssa
