import Nmos6502.Assembly.Program

/-!
# The two passes

When each part of an assembly succeeds, and what it gives then: the statement of a line
(`Layout.placeStatement_eq_ok_iff`), a line (`Layout.ofLine_eq_ok_iff`), some lines
(`Layout.ofLines_cons_eq_ok_iff`), and the whole (`Program.assemble_eq_ok_iff`). The second pass
succeeds if every label that a statement waits for has an address that can be filled in
(`Statement.link_eq_ok_iff`); a statement that waits for none stays as it is.
-/

namespace Nmos6502

namespace Layout

variable {symbols : Symbols} {position number : Nat} {line : Line}

theorem placeStatement_eq_ok_iff {statements : List Statement} :
    placeStatement position number line = .ok statements ↔
      line.mnemonic = none ∧ statements = [] ∨
      ∃ mnemonic s, line.mnemonic = some mnemonic ∧
        Statement.encode mnemonic line.operand (UInt16.ofNat position) number = .ok s ∧
        position + s.bytes.length ≤ memorySize ∧ statements = [s] := by
  unfold placeStatement
  cases hm : line.mnemonic with
  | none => simp [eq_comm]
  | some mnemonic =>
    cases he : Statement.encode mnemonic line.operand (UInt16.ofNat position) number with
    | error problem => simp [he]
    | ok s =>
      by_cases hfit : position + s.bytes.length ≤ memorySize
      · simp [he, hfit, eq_comm]
      · simp [he, hfit]

theorem ofLine_eq_ok_iff {first : Layout} : ofLine symbols position number line = .ok first ↔
    ∃ after statements, placeLabel symbols position number line.label = .ok after ∧
      placeStatement position number line = .ok statements ∧
      first = ⟨statements, after, position + size statements⟩ := by
  unfold ofLine
  cases placeLabel symbols position number line.label with
  | error problem => simp
  | ok after =>
    cases placeStatement position number line with
    | error problem => simp
    | ok statements => simp [eq_comm]

theorem ofLines_cons_eq_ok_iff {text : List Char} {rest : List (List Char)} {layout : Layout} :
    ofLines symbols position number (text :: rest) = .ok layout ↔ ∃ first others,
      ofLine symbols position number (Line.parse text) = .ok first ∧
      ofLines first.symbols first.position (number + 1) rest = .ok others ∧
      layout = { others with statements := first.statements ++ others.statements } := by
  conv => lhs; unfold ofLines
  cases ofLine symbols position number (Line.parse text) with
  | error problem => simp
  | ok first =>
    cases hr : ofLines first.symbols first.position (number + 1) rest with
    | error e => simp [hr]
    | ok others => simp [hr, eq_comm]

end Layout

namespace Statement

variable {symbols : Symbols} {s : Statement}

/-- A statement that depends on no label any more. -/
def settled (s : Statement) : Statement :=
  { s with label := none }

/-- The address that a statement waits for can be filled in. -/
def Resolves (symbols : Symbols) (s : Statement) : Prop :=
  ∃ s', s.resolve symbols = .ok s'

/-- The statement with the address that it waits for filled in. -/
def filled (symbols : Symbols) (s : Statement) : Statement :=
  match s.resolve symbols with
  | .error _ => s
  | .ok s' => s'.settled

theorem filled_of_resolve {s' : Statement} (h : s.resolve symbols = .ok s') :
    s.filled symbols = s'.settled := by
  unfold filled
  rw [h]

theorem resolve_of_label_eq_none (h : s.label = none) : s.resolve symbols = .ok s := by
  unfold resolve
  rw [h]

theorem filled_of_label_eq_none (h : s.label = none) : s.filled symbols = s := by
  rw [filled_of_resolve (resolve_of_label_eq_none h)]
  unfold settled
  rw [← h]

theorem resolve_of_label {name : List Char} {kind : Reference} {target : UInt16}
    (hl : s.label = some (name, kind)) (ht : symbols.resolve? name = some target) :
    s.resolve symbols = s.patch target := by
  unfold resolve
  simp only [hl, ht]

/-- A label whose address can be filled in has one. -/
theorem Resolves.exists_target {name : List Char} {kind : Reference} (h : s.Resolves symbols)
    (hl : s.label = some (name, kind)) : ∃ target s', symbols.resolve? name = some target ∧
      s.patch target = .ok s' ∧ s.filled symbols = s'.settled := by
  obtain ⟨s', hs'⟩ := h
  cases ht : symbols.resolve? name with
  | none =>
    unfold resolve at hs'
    simp only [hl, ht] at hs'
    cases hs'
  | some target =>
    have hfilled := filled_of_resolve hs'
    rw [resolve_of_label hl ht] at hs'
    exact ⟨target, s', rfl, hs', hfilled⟩

/-- **The second pass** gives the bytes of the statements with all addresses filled in. -/
theorem link_eq_ok_iff {texts : List (List Char)} {statements : List Statement}
    {bytes : List UInt8} : link symbols texts statements = .ok bytes ↔
      (∀ s ∈ statements, s.Resolves symbols) ∧
        bytes = (statements.map (filled symbols)).flatMap Statement.bytes := by
  induction statements generalizing bytes with
  | nil => simp [link, eq_comm]
  | cons s rest ih =>
    unfold link
    rw [List.forall_mem_cons, List.map_cons, List.flatMap_cons]
    cases hs : s.resolve symbols with
    | error problem =>
      have hn : ¬ s.Resolves symbols := by
        rintro ⟨s', hs'⟩
        rw [hs] at hs'
        cases hs'
      simp [hn]
    | ok s' =>
      have hy : s.Resolves symbols := ⟨s', hs⟩
      have hbytes : (s.filled symbols).bytes = s'.bytes := by
        rw [filled_of_resolve hs]
        rfl
      cases hr : link symbols texts rest with
      | error e =>
        have hn : ¬ ∀ s ∈ rest, s.Resolves symbols := by
          intro hall
          rw [ih.mpr ⟨hall, rfl⟩] at hr
          cases hr
        simp only [Except.map, reduceCtorEq, hn, and_false, false_and]
      | ok others =>
        obtain ⟨hall, hothers⟩ := ih.mp hr
        simp only [Except.map, Except.ok.injEq, hy, true_and, hbytes, ← hothers]
        exact ⟨fun h => ⟨hall, h.symm⟩, fun h => h.2.symm⟩

/-- The second pass leaves bytes that depend on no label. -/
theorem link_of_unlabelled (symbols : Symbols) (texts : List (List Char))
    {statements : List Statement} (h : ∀ s ∈ statements, s.label = none) :
    link symbols texts statements = .ok (statements.flatMap Statement.bytes) := by
  rw [link_eq_ok_iff]
  refine ⟨fun s hs => ⟨s, resolve_of_label_eq_none (h s hs)⟩, ?_⟩
  rw [List.map_congr_left fun s hs => filled_of_label_eq_none (h s hs), List.map_id']

end Statement

theorem Program.assemble_eq_ok_iff {origin : UInt16} {source : List Char} {program : Program} :
    assemble origin source = .ok program ↔ ∃ layout bytes,
      Layout.ofLines .empty origin.toNat 1 (lines source) = .ok layout ∧
      Statement.link layout.symbols (lines source) layout.statements = .ok bytes ∧
      program = ⟨origin, bytes, layout.symbols⟩ := by
  unfold assemble
  dsimp only
  cases Layout.ofLines .empty origin.toNat 1 (lines source) with
  | error e => simp
  | ok layout =>
    cases hl : Statement.link layout.symbols (lines source) layout.statements with
    | error e => simp [hl, Except.map]
    | ok bytes => simp [hl, Except.map, eq_comm]

end Nmos6502
