import Nmos6502.Proofs.Assembly.Sizes

/-!
# Filling in addresses in place

`Statement.patch` makes a new statement. Filling in can also be carried out in place, byte by byte
(`Statement.patchInPlace`): then an index can be past the end of the bytes, and a failure can leave
bytes behind that were written before. For a statement with room for the address neither happens, and
what is done in place is what `patch` does (`Statement.patchInPlace_eq`).

What is filled in replaces what was filled in before (`Statement.patch_of_patch`). So of any number of
attempts the last one that succeeds decides (`Statement.foldl_attempt`).
-/

namespace Nmos6502

namespace Statement

variable {s s' : Statement} {name : List Char} {target : UInt16}

/-! ### What is filled in -/

theorem patch_of_none (h : s.label = none) (target : UInt16) : s.patch target = .ok s := by
  unfold patch
  rw [h]

theorem patch_of_absolute (h : s.label = some (name, .absolute)) (target : UInt16) :
    s.patch target =
      .ok { s with bytes := (s.bytes.set 1 (lowByte target)).set 2 (highByte target) } := by
  unfold patch
  rw [h]

theorem patch_of_relative (h : s.label = some (name, .relative)) (target : UInt16) :
    s.patch target = (branchOffset s.position target).map fun offset =>
      { s with bytes := s.bytes.set 1 offset } := by
  unfold patch
  rw [h]

/-- What is filled in depends on how the statement refers to its label. -/
theorem of_patch (h : s.patch target = .ok s') : (s.label = none ∧ s' = s) ∨
    (∃ name, s.label = some (name, .absolute) ∧
      s' = { s with bytes := (s.bytes.set 1 (lowByte target)).set 2 (highByte target) }) ∨
    ∃ name offset, s.label = some (name, .relative) ∧
      branchOffset s.position target = .ok offset ∧
      s' = { s with bytes := s.bytes.set 1 offset } := by
  unfold patch at h
  split at h
  · next hl =>
    cases h
    exact Or.inl ⟨hl, rfl⟩
  · next name hl =>
    cases h
    exact Or.inr (Or.inl ⟨name, hl, rfl⟩)
  · next name hl =>
    cases ho : branchOffset s.position target with
    | error problem =>
      rw [ho] at h
      cases h
    | ok offset =>
      rw [ho] at h
      cases h
      exact Or.inr (Or.inr ⟨name, offset, hl, rfl, rfl⟩)

/-- Two statements that differ in nothing but the bytes behind the opcode. -/
structure SameButOperand (s s' : Statement) : Prop where
  opcode : s'.bytes.head? = s.bytes.head?
  length : s'.bytes.length = s.bytes.length
  label : s'.label = s.label
  position : s'.position = s.position
  line : s'.line = s.line

theorem head?_set_succ (bytes : List UInt8) (index : Nat) (byte : UInt8) :
    (bytes.set (index + 1) byte).head? = bytes.head? := by
  cases bytes <;> rfl

/-- Filling in an address changes nothing but the bytes behind the opcode. -/
theorem sameButOperand_of_patch (h : s.patch target = .ok s') : s.SameButOperand s' := by
  have hlength := length_bytes_of_patch h
  obtain ⟨-, rfl⟩ | ⟨name, -, rfl⟩ | ⟨name, offset, -, -, rfl⟩ := of_patch h
  · exact ⟨rfl, rfl, rfl, rfl, rfl⟩
  · refine ⟨?_, hlength, rfl, rfl, rfl⟩
    rw [head?_set_succ, head?_set_succ]
  · exact ⟨head?_set_succ _ _ _, hlength, rfl, rfl, rfl⟩

/-- **An address that is filled in** replaces the one that was filled in before. -/
theorem patch_of_patch (h : s.patch target = .ok s') (next : UInt16) :
    s'.patch next = s.patch next := by
  have hset : ∀ (bytes : List UInt8) (low high low' high' : UInt8),
      (((bytes.set 1 low).set 2 high).set 1 low').set 2 high' =
        (bytes.set 1 low').set 2 high' := by
    intro bytes low high low' high'
    rw [List.set_comm high low' (by decide), List.set_set, List.set_set]
  have hlabel := (sameButOperand_of_patch h).label
  obtain ⟨-, rfl⟩ | ⟨name, hl, hs'⟩ | ⟨name, offset, hl, -, hs'⟩ := of_patch h
  · rfl
  · rw [patch_of_absolute hl, patch_of_absolute (hlabel.trans hl), hs']
    dsimp only
    rw [hset]
  · rw [patch_of_relative hl, patch_of_relative (hlabel.trans hl), hs']
    simp only [List.set_set]

/-! ### Filling in place -/

/-- Why an action in place stops. -/
inductive Stop
  /-- There is no byte at an index. -/
  | outOfBounds (index : Nat)
  | refused (problem : Problem)
  deriving DecidableEq, Repr

/-- Stores a byte at an index; there has to be one already. -/
def storeByte (index : Nat) (byte : UInt8) : EStateM Stop Statement Unit := fun s =>
  if index < s.bytes.length then .ok () { s with bytes := s.bytes.set index byte }
  else .error (.outOfBounds index) s

/-- Stores the address of a label, in the way in which a statement at `position` refers to it. -/
def storeAddress (position target : UInt16) :
    Option (List Char × Reference) → EStateM Stop Statement Unit
  | none => pure ()
  | some (_, .absolute) => do
    storeByte 1 (lowByte target)
    storeByte 2 (highByte target)
  | some (_, .relative) =>
    match branchOffset position target with
    | .error problem => throw (.refused problem)
    | .ok offset => storeByte 1 offset

/-- Fills in the address of the label in place. What has been stored before a failure stays stored. -/
def patchInPlace (target : UInt16) : EStateM Stop Statement Unit := do
  let s ← get
  storeAddress s.position target s.label

/-- There are bytes where the address of the label is filled in. -/
def HasRoom (s : Statement) : Prop :=
  ∀ name kind, s.label = some (name, kind) → kind.size < s.bytes.length

theorem SameButOperand.hasRoom (h : s.SameButOperand s') (hs : s.HasRoom) : s'.HasRoom := by
  intro name kind hl
  rw [h.length]
  rw [h.label] at hl
  exact hs name kind hl

theorem storeByte_of_lt {index : Nat} (h : index < s.bytes.length) (byte : UInt8) :
    storeByte index byte s = .ok () { s with bytes := s.bytes.set index byte } :=
  if_pos h

/-- What comes after a byte is stored goes on from the statement with the byte. -/
theorem storeByte_bind {index : Nat} (h : index < s.bytes.length) (byte : UInt8)
    (next : EStateM Stop Statement Unit) : (do storeByte index byte; next) s =
      next { s with bytes := s.bytes.set index byte } := by
  change EStateM.bind (storeByte index byte) (fun _ => next) s = _
  unfold EStateM.bind
  rw [storeByte_of_lt h]

/-- **Filling in place** comes to the same as `patch`: no index is out of bounds, and where `patch` is
refused the statement stays as it was. -/
theorem patchInPlace_eq (h : s.HasRoom) (target : UInt16) : patchInPlace target s =
    match s.patch target with
    | .ok s' => .ok () s'
    | .error problem => .error (.refused problem) s := by
  have hstart : patchInPlace target s = storeAddress s.position target s.label s := rfl
  rw [hstart]
  rcases hl : s.label with _ | ⟨name, _ | _⟩
  · rw [patch_of_none hl]
    rfl
  · have hroom : 2 < s.bytes.length := h name .absolute hl
    rw [patch_of_absolute hl, storeAddress]
    dsimp only
    rw [storeByte_bind (Nat.lt_of_succ_lt hroom), storeByte_of_lt]
    rwa [List.length_set]
  · have hroom : 1 < s.bytes.length := h name .relative hl
    rw [patch_of_relative hl, storeAddress]
    cases branchOffset s.position target with
    | error problem => rfl
    | ok offset => exact storeByte_of_lt hroom offset

/-! ### Attempts -/

/-- The statement after an attempt to fill in an address in place, whether it succeeds or not. -/
def attempt (s : Statement) (target : UInt16) : Statement :=
  match patchInPlace target s with
  | .ok _ s' | .error _ s' => s'

theorem attempt_eq (h : s.HasRoom) (target : UInt16) :
    s.attempt target = (s.patch target).toOption.getD s := by
  unfold attempt
  rw [patchInPlace_eq h]
  cases s.patch target <;> rfl

/-- **Of several attempts** the last one that succeeds decides. -/
theorem foldl_attempt (h : s.HasRoom) (targets : List UInt16) : targets.foldl attempt s =
    (targets.filterMap fun target => (s.patch target).toOption).getLast?.getD s := by
  induction targets generalizing s with
  | nil => rfl
  | cons target rest ih =>
    rw [List.foldl_cons, attempt_eq h]
    cases hp : s.patch target with
    | error problem =>
      rw [List.filterMap_cons_none (by rw [hp]; rfl)]
      exact ih h
    | ok s' =>
      -- what the other attempts fill in does not depend on this one
      have hsame : (fun target => (s'.patch target).toOption) =
          fun target => (s.patch target).toOption := by
        funext next
        rw [patch_of_patch hp]
      rw [List.filterMap_cons_some (by rw [hp]; rfl), List.getLast?_cons, ← hsame]
      exact ih ((sameButOperand_of_patch hp).hasRoom h)

end Statement

end Nmos6502
