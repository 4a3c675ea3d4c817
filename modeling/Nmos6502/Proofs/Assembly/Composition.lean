import Nmos6502.Proofs.Assembly.Placement

/-!
# Programs put one behind the other

Lines that follow other lines make bytes that follow theirs and define labels that follow theirs
(`LinesMake.append`). What some lines make in a program they also make in a larger one that gives their
labels the same addresses, and further on in the text (`LinesMake.further`). Two programs that define no
label in common can therefore be put one behind the other (`Program.IsAssembled.join`), and so can their
source texts, with a line feed between them (`Program.assemble_join`).
-/

namespace Nmos6502

/-! ### Texts -/

/-- The pieces of a text have the parts of its lines; the last piece may be no line, and is blank then. -/
theorem Line.map_parse_of_linesOfPieces {ps : List (List Char)} (h : ps ≠ []) :
    ps.map parse = (linesOfPieces ps).map parse ∨
      ps.map parse = (linesOfPieces ps).map parse ++ [parse []] :=
  map_of_linesOfPieces parse_withoutReturn h

/-- A text behind another and a line feed: the pieces of the first are lines now. -/
theorem Line.map_parse_lines_append (first second : List Char) :
    (lines (first ++ '\n' :: second)).map parse =
      (pieces '\n' first).map parse ++ (lines second).map parse :=
  map_lines_append parse_withoutReturn first second

/-! ### Symbols -/

/-- The label further on in the text. -/
def Symbol.further (lines : Nat) (symbol : Symbol) : Symbol :=
  { symbol with line := symbol.line + lines }

namespace Symbols

theorem resolve?_append (xs ys : List Symbol) (name : List Char) :
    resolve? ⟨xs ++ ys⟩ name = (resolve? ⟨xs⟩ name).or (resolve? ⟨ys⟩ name) := by
  unfold resolve? find?
  rw [List.find?_append]
  cases xs.find? fun s => s.name == name <;> rfl

theorem resolve?_further (lines : Nat) (xs : List Symbol) (name : List Char) :
    resolve? ⟨xs.map (Symbol.further lines)⟩ name = resolve? ⟨xs⟩ name := by
  unfold resolve? find?
  rw [List.find?_map, Option.map_map]
  rfl

theorem resolve?_eq_none_of_not_mem {xs : List Symbol} {name : List Char}
    (h : name ∉ xs.map Symbol.name) : resolve? ⟨xs⟩ name = none := by
  unfold resolve?
  rw [find?_eq_none_iff.mpr h]
  rfl

theorem mem_of_resolve?_eq_some {xs : List Symbol} {name : List Char} {target : UInt16}
    (h : resolve? ⟨xs⟩ name = some target) : name ∈ xs.map Symbol.name := by
  by_contra hn
  rw [resolve?_eq_none_of_not_mem hn] at h
  cases h

end Symbols

/-! ### Lines -/

namespace LinesMake

variable {symbols symbols' : Symbols} {position number : Nat} {xs ys : List Line}
  {own own' : List Symbol} {bytes bytes' : List UInt8}

/-- Lines behind other lines. -/
theorem append (h : LinesMake symbols position number xs own bytes)
    (h' : LinesMake symbols (position + bytes.length) (number + xs.length) ys own' bytes') :
    LinesMake symbols position number (xs ++ ys) (own ++ own') (bytes ++ bytes') := by
  have hsites : Site.ofLines position number (xs ++ ys) = Site.ofLines position number xs ++
      Site.ofLines (position + bytes.length) (number + xs.length) ys := by
    rw [h.length_bytes]
    exact Site.ofLines_append position number xs ys
  constructor
  · rw [hsites]
    exact List.forall_mem_append.mpr ⟨h.fits, h'.fits⟩
  · rw [hsites, List.filterMap_append, ← h.own_eq, ← h'.own_eq]
  · rw [hsites, List.filterMap_append]
    exact List.forall_mem_append.mpr ⟨h.resolves, h'.resolves⟩
  · rw [hsites, List.flatMap_append, ← h.bytes_eq, ← h'.bytes_eq]

/-- A blank line adds nothing. -/
theorem append_blank (h : LinesMake symbols position number xs own bytes) :
    LinesMake symbols position number (xs ++ [Line.parse []]) own bytes := by
  have hblank : LinesMake symbols (position + bytes.length) (number + xs.length) [Line.parse []]
      [] [] := by
    constructor
    · rw [Site.ofLines, Site.ofLines, List.forall_mem_singleton]
      exact ⟨fun name hn => (Option.some_ne_none name hn.symm).elim,
        fun mnemonic hm => (Option.some_ne_none mnemonic hm.symm).elim⟩
    · rfl
    · exact List.forall_mem_nil _
    · rfl
  have happend := h.append hblank
  rw [List.append_nil, List.append_nil] at happend
  exact happend

/-- Lines further on in the text, in a program that gives their labels the same addresses. -/
theorem further {origin : UInt16} (h : LinesMake symbols origin.toNat number xs own bytes)
    (hmoves : symbols.MovesTo symbols' 0) (lines : Nat) :
    LinesMake symbols' origin.toNat (number + lines) xs (own.map (Symbol.further lines)) bytes := by
  have hsites := Site.ofLines_eq_map_placed origin.toNat number xs
  obtain ⟨hfits, hown, hresolves, hbytes⟩ := h
  rw [hsites] at hfits hown hresolves hbytes
  have hplaced : ∀ site ∈ Site.ofLines 0 0 xs,
      ∀ s ∈ (site.placed origin.toNat number).statement?, s.Resolves symbols :=
    fun site hsite s hs =>
      hresolves s (List.mem_filterMap.mpr ⟨_, List.mem_map_of_mem hsite, hs⟩)
  have hmoves' : symbols.MovesTo symbols' (origin - origin) := by
    rw [UInt16.sub_self]
    exact hmoves
  have hsites' := Site.ofLines_eq_map_placed origin.toNat (number + lines) xs
  constructor
  · rw [hsites', List.forall_mem_map]
    intro site hsite
    exact (hfits _ (List.mem_map_of_mem hsite)).further number lines
  · rw [hsites', hown, List.filterMap_map, List.filterMap_map, List.map_filterMap]
    refine List.filterMap_congr fun site _ => ?_
    simp [Site.symbol?, Site.placed, Symbol.further, Function.comp_def, Nat.add_right_comm]
  · rw [hsites', List.filterMap_map]
    intro s hs
    obtain ⟨site, hsite, hs⟩ := List.mem_filterMap.mp hs
    exact Site.resolves_placed number lines (Or.inl rfl) hmoves' (hplaced site hsite) s hs
  · rw [hsites', hbytes, List.flatMap_map, List.flatMap_map]
    refine List.flatMap_congr fun site hsite => ?_
    exact (Site.code_placed_self number lines hmoves (hplaced site hsite)).symm

end LinesMake

/-! ### Programs -/

namespace Program

/-- A program with another one behind it, whose lines come after the given number of lines. -/
def join (p q : Program) (lines : Nat) : Program :=
  ⟨p.origin, p.bytes ++ q.bytes, ⟨p.symbols.toList ++ q.symbols.toList.map (Symbol.further lines)⟩⟩

variable {p q : Program} {xs ys : List Line}

theorem movesTo_join_left (p q : Program) (lines : Nat) :
    p.symbols.MovesTo (p.join q lines).symbols 0 := by
  intro name target h
  have happend := Symbols.resolve?_append p.symbols.toList
    (q.symbols.toList.map (Symbol.further lines)) name
  have hp : Symbols.resolve? ⟨p.symbols.toList⟩ name = some target := h
  rw [hp, Option.some_or] at happend
  rw [UInt16.add_zero]
  exact happend

theorem movesTo_join_right (lines : Nat) (hdisjoint :
    ∀ name ∈ p.symbols.toList.map Symbol.name, name ∉ q.symbols.toList.map Symbol.name) :
    q.symbols.MovesTo (p.join q lines).symbols 0 := by
  intro name target h
  have happend := Symbols.resolve?_append p.symbols.toList
    (q.symbols.toList.map (Symbol.further lines)) name
  have hp : Symbols.resolve? ⟨p.symbols.toList⟩ name = none :=
    Symbols.resolve?_eq_none_of_not_mem fun hmem =>
      hdisjoint name hmem (Symbols.mem_of_resolve?_eq_some h)
  rw [hp, Option.none_or, Symbols.resolve?_further] at happend
  rw [UInt16.add_zero]
  exact happend.trans h

/-- **Lines behind other lines** assemble to the program that has the bytes and the labels of both. -/
theorem IsAssembled.join (hp : p.IsAssembled xs) (hq : q.IsAssembled ys)
    (horigin : q.origin.toNat = p.origin.toNat + p.bytes.length) (hdisjoint :
      ∀ name ∈ p.symbols.toList.map Symbol.name, name ∉ q.symbols.toList.map Symbol.name) :
    (p.join q xs.length).IsAssembled (xs ++ ys) where
  make := by
    have hfirst := hp.make.further (movesTo_join_left p q xs.length) 0
    have hsecond := hq.make.further (movesTo_join_right xs.length hdisjoint) xs.length
    rw [horigin] at hsecond
    have hself : p.symbols.toList.map (Symbol.further 0) = p.symbols.toList := List.map_id' _
    rw [hself] at hfirst
    exact hfirst.append hsecond
  nodup := by
    have hnames : (q.symbols.toList.map (Symbol.further xs.length)).map Symbol.name =
        q.symbols.toList.map Symbol.name := List.map_map
    unfold Program.join
    rw [List.map_append, hnames]
    exact List.nodup_append.mpr ⟨hp.nodup, hq.nodup, fun name hn name' hn' heq =>
      hdisjoint name hn (heq ▸ hn')⟩

theorem IsAssembled.append_blank (h : p.IsAssembled xs) : p.IsAssembled (xs ++ [Line.parse []]) :=
  ⟨h.make.append_blank, h.nodup⟩

/-- **Assembly is compositional.** If two source texts assemble, the second one where the first one ends,
and define no label in common, then both with a line feed between them assemble to the bytes and the labels
of the first followed by those of the second, whose lines come after those of the first. -/
theorem assemble_join {origin : UInt16} {first second : List Char}
    (hfirst : assemble origin first = .ok p)
    (hend : origin.toNat + p.bytes.length < memorySize)
    (hsecond : assemble (origin + UInt16.ofNat p.bytes.length) second = .ok q) (hdisjoint :
      ∀ name ∈ p.symbols.toList.map Symbol.name, name ∉ q.symbols.toList.map Symbol.name) :
    assemble origin (first ++ '\n' :: second) = .ok ⟨origin, p.bytes ++ q.bytes,
      ⟨p.symbols.toList ++ q.symbols.toList.map fun symbol =>
        { symbol with line := symbol.line + (first.count '\n' + 1) }⟩⟩ := by
  obtain ⟨rfl, hp⟩ := assemble_eq_ok_iff_isAssembled.mp hfirst
  obtain ⟨hnext, hq⟩ := assemble_eq_ok_iff_isAssembled.mp hsecond
  have horigin : q.origin.toNat = p.origin.toNat + p.bytes.length := by
    have hmemory : memorySize = 0x10000 := rfl
    rw [hnext, UInt16.toNat_add, UInt16.toNat_ofNat']
    omega
  -- the pieces of the first text are its lines, or its lines and a blank one
  have hpieces : p.IsAssembled ((pieces '\n' first).map Line.parse) := by
    rcases Line.map_parse_of_linesOfPieces (pieces_ne_nil '\n' first) with h | h
    · rw [h]
      exact hp
    · rw [h]
      exact hp.append_blank
  have hjoin := hpieces.join hq horigin hdisjoint
  rw [← Line.map_parse_lines_append, List.length_map, length_pieces] at hjoin
  exact assemble_eq_ok_iff_isAssembled.mpr ⟨rfl, hjoin⟩

/-- Two loops, each with a label that stands for the address at which the two programs meet. -/
theorem assemble_join_of_loops :
    assemble 0x0600 ("go: LDX tab\n BNE go\ntab:".toList ++ '\n' ::
      "\nrun: DEX\n BNE run\n JMP run".toList) =
        .ok ⟨0x0600, [0xAE, 0x05, 0x06, 0xD0, 0xFB, 0xCA, 0xD0, 0xFD, 0x4C, 0x05, 0x06],
          ⟨[⟨"go".toList, 0x0600, 1⟩, ⟨"tab".toList, 0x0605, 3⟩, ⟨"run".toList, 0x0605, 5⟩]⟩⟩ := by
  have hfirst : assemble 0x0600 "go: LDX tab\n BNE go\ntab:".toList =
      .ok ⟨0x0600, [0xAE, 0x05, 0x06, 0xD0, 0xFB],
        ⟨[⟨"go".toList, 0x0600, 1⟩, ⟨"tab".toList, 0x0605, 3⟩]⟩⟩ := by decide +kernel
  have hsecond : assemble 0x0605 "\nrun: DEX\n BNE run\n JMP run".toList =
      .ok ⟨0x0605, [0xCA, 0xD0, 0xFD, 0x4C, 0x05, 0x06], ⟨[⟨"run".toList, 0x0605, 2⟩]⟩⟩ := by
    decide +kernel
  exact assemble_join hfirst (by decide) hsecond (by decide)

end Program

end Nmos6502
