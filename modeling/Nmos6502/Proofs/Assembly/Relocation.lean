import Mathlib.Data.List.Forall2
import Nmos6502.Proofs.Assembly.Placement

/-!
# Programs at another origin

A program without branches to fixed addresses assembles at every origin at which it fits
(`Program.IsAssembled.exists_at`). The labels of the two programs are the same, each at the same distance
from the origin (`Symbol.IsShifted`). So are the lines, and they have the same bytes but for the words
taken from labels, which move with the labels (`Site.IsRelocated`). `Program.relocates` says both for a
source text.
-/

namespace Nmos6502

variable {origin origin' : UInt16}

/-! ### Labels -/

/-- The same label at the same distance from another origin. -/
structure Symbol.IsShifted (origin origin' : UInt16) (symbol symbol' : Symbol) : Prop where
  name_eq : symbol'.name = symbol.name
  line_eq : symbol'.line = symbol.line
  address : symbol'.address.toNat + origin.toNat = symbol.address.toNat + origin'.toNat

namespace Symbols

variable {xs ys : List Symbol}

theorem exists_resolve?_of_shifted (h : List.Forall₂ (Symbol.IsShifted origin origin') xs ys)
    {name : List Char} {target : UInt16} (ht : resolve? ⟨xs⟩ name = some target) :
    ∃ target', resolve? ⟨ys⟩ name = some target' ∧
      target'.toNat + origin.toNat = target.toNat + origin'.toNat := by
  unfold resolve? find? at ht ⊢
  induction h with
  | nil => cases ht
  | @cons x y xs ys hfirst _ ih =>
    rw [List.find?_cons] at ht ⊢
    rw [hfirst.name_eq]
    cases hname : x.name == name with
    | true =>
      rw [hname] at ht
      cases ht
      exact ⟨y.address, rfl, hfirst.address⟩
    | false =>
      rw [hname] at ht
      exact ih ht

theorem movesTo_of_shifted (h : List.Forall₂ (Symbol.IsShifted origin origin') xs ys) :
    MovesTo ⟨xs⟩ ⟨ys⟩ (origin' - origin) := by
  intro name target ht
  obtain ⟨target', ht', haddress⟩ := exists_resolve?_of_shifted h ht
  have hsum : target' + origin = target + origin' := by
    rw [← UInt16.toNat_inj, UInt16.toNat_add, UInt16.toNat_add, haddress]
  have htarget : target' = target + (origin' - origin) := by
    rw [← UInt16.add_left_inj origin, hsum, UInt16.add_assoc, UInt16.sub_add_cancel]
  rw [ht', htarget]

theorem map_name_of_shifted (h : List.Forall₂ (Symbol.IsShifted origin origin') xs ys) :
    ys.map Symbol.name = xs.map Symbol.name := by
  induction h with
  | nil => rfl
  | cons hfirst _ ih => rw [List.map_cons, List.map_cons, hfirst.name_eq, ih]

end Symbols

/-! ### Words taken from labels -/

namespace Statement

variable {mnemonic operand : List Char} {position : UInt16} {line : Nat} {s : Statement}

/-- A statement that takes a word from a label is an opcode and the word. -/
theorem exists_withWord_eq {name : List Char} (h : encode mnemonic operand position line = .ok s)
    (hl : s.wordLabel? = some name) :
    ∃ op : Opcode, ∀ target, s.withWord target = op.code :: littleEndian target := by
  have hlabel := wordLabel?_eq_some_iff.mp hl
  obtain ⟨op, -, rfl, -⟩ := exists_takesLabel h (by rw [hlabel]; exact Option.some_ne_none _)
  refine ⟨op, fun target => ?_⟩
  unfold waiting at hlabel ⊢
  split at hlabel
  · cases hlabel
  · next hm =>
    rw [if_neg hm]
    rfl

/-- A branch takes no word from a label. -/
theorem wordLabel?_of_isBranch {i : Instruction} (h : encode mnemonic operand position line = .ok s)
    (hi : Instruction.ofMnemonic? mnemonic = some i) (hb : i.isBranch = true) :
    s.wordLabel? = none := by
  by_contra hne
  obtain ⟨name, hname⟩ := Option.ne_none_iff_exists'.mp hne
  have hlabel := wordLabel?_eq_some_iff.mp hname
  have hl : s.label ≠ none := by
    rw [hlabel]
    exact Option.some_ne_none _
  obtain ⟨i', hi', hencode⟩ := exists_encode_eq_ofInstruction h hl
  obtain rfl : i' = i := Option.some.inj (hi'.symm.trans hi)
  rw [hencode] at h
  obtain ⟨op, rfl, htakes, hwaiting⟩ := exists_takesLabel_ofInstruction h hl
  rw [hwaiting] at h
  cases h
  unfold waiting at hlabel
  rw [if_pos ((Instruction.isBranch_iff_of_mem_table htakes.mem_table).mp hb)] at hlabel
  cases hlabel

end Statement

/-! ### Lines -/

namespace Site

/-- The label whose address is part of the bytes of a line as a word. -/
def wordLabel? (site : Site) : Option (List Char) :=
  site.statement?.bind Statement.wordLabel?

/-- The same line in a program at another origin. Its bytes are the same, unless they hold a word taken
from a label: then this word has moved. -/
structure IsRelocated (p q : Program) (site site' : Site) : Prop where
  line_eq : site'.line = site.line
  number_eq : site'.number = site.number
  position : site'.position + p.origin.toNat = site.position + q.origin.toNat
  code : site.wordLabel? = none → site'.code q.symbols = site.code p.symbols
  word {name : List Char} : site.wordLabel? = some name → ∃ op target target',
    p.symbols.resolve? name = some target ∧ q.symbols.resolve? name = some target' ∧
      target'.toNat + p.origin.toNat = target.toNat + q.origin.toNat ∧
      site.code p.symbols = op :: littleEndian target ∧
      site'.code q.symbols = op :: littleEndian target'
  /-- A branch to a label or by a raw offset leads as far as before. -/
  branch {mnemonic : List Char} {i : Instruction} : site.line.mnemonic = some mnemonic →
    Instruction.ofMnemonic? mnemonic = some i → i.isBranch = true →
      site'.code q.symbols = site.code p.symbols

/-- Lines at two origins, one by one. -/
theorem forall₂_ofLines {R : Site → Site → Prop} {position position' number : Nat}
    {lines : List Line} (h : ∀ site ∈ ofLines 0 0 lines,
      R (site.placed position number) (site.placed position' number)) :
    List.Forall₂ R (ofLines position number lines) (ofLines position' number lines) := by
  rw [ofLines_eq_map_placed position, ofLines_eq_map_placed position', List.forall₂_map_left_iff,
    List.forall₂_map_right_iff]
  exact List.forall₂_same.mpr h

/-- The labels of lines that fit at both origins. -/
theorem forall₂_symbols {number : Nat} {lines : List Line}
    (h : ∀ site ∈ ofLines origin.toNat number lines, site.Fits)
    (h' : ∀ site ∈ ofLines origin'.toNat number lines, site.Fits) :
    List.Forall₂ (Symbol.IsShifted origin origin')
      ((ofLines origin.toNat number lines).filterMap symbol?)
      ((ofLines origin'.toNat number lines).filterMap symbol?) := by
  refine List.rel_filterMap (R := fun site site' =>
    Option.Rel (Symbol.IsShifted origin origin') site.symbol? site'.symbol?) ?_ ?_
  · exact fun _ _ h => h
  · refine forall₂_ofLines fun site hsite => ?_
    rw [ofLines_eq_map_placed, List.forall_mem_map] at h h'
    unfold symbol? placed
    dsimp only
    cases hl : site.line.label with
    | none => exact Option.Rel.none
    | some name =>
      have hp : origin.toNat + site.position < memorySize := ((h site hsite).label name hl).2
      have hp' : origin'.toNat + site.position < memorySize := ((h' site hsite).label name hl).2
      refine Option.Rel.some ⟨rfl, rfl, ?_⟩
      dsimp only
      rw [toNat_position hp, toNat_position hp']
      omega

variable {p q : Program} {site : Site}

/-- A word that a line takes from a label moves with the label. -/
theorem exists_word (hname : site.line.namesTarget = false)
    (hsymbols : List.Forall₂ (Symbol.IsShifted p.origin q.origin) p.symbols.toList q.symbols.toList)
    (hresolves : ∀ s ∈ (site.placed p.origin.toNat 1).statement?, s.Resolves p.symbols)
    {name : List Char} (hword : (site.placed p.origin.toNat 1).wordLabel? = some name) :
    ∃ op target target',
      p.symbols.resolve? name = some target ∧ q.symbols.resolve? name = some target' ∧
        target'.toNat + p.origin.toNat = target.toNat + q.origin.toNat ∧
        (site.placed p.origin.toNat 1).code p.symbols = op :: littleEndian target ∧
        (site.placed q.origin.toNat 1).code q.symbols = op :: littleEndian target' := by
  have hmoves : p.symbols.MovesTo q.symbols (q.origin - p.origin) :=
    Symbols.movesTo_of_shifted hsymbols
  obtain ⟨s, hs, hl⟩ := Option.bind_eq_some_iff.mp hword
  obtain ⟨mnemonic, -, hencode⟩ := exists_encode_of_statement? hs
  obtain ⟨op, hop⟩ := Statement.exists_withWord_eq hencode hl
  obtain ⟨-, -, hmoved⟩ := (hresolves s hs).moved hmoves 0
  obtain ⟨target, ht, hbytes, hbytes'⟩ := hmoved name hl
  obtain ⟨target', ht', haddress⟩ := Symbols.exists_resolve?_of_shifted hsymbols ht
  obtain rfl : target' = target + (q.origin - p.origin) :=
    Option.some.inj (ht'.symm.trans (hmoves name target ht))
  have hs' : (site.placed q.origin.toNat 1).statement? = some (s.moved (q.origin - p.origin) 0) := by
    rw [statement?_placed 1 0 (Or.inr hname), hs]
    rfl
  refine ⟨op.code, target, _, ht, ht', haddress, ?_, ?_⟩
  · unfold code
    rw [hs, ← hop]
    exact hbytes
  · unfold code
    rw [hs', ← hop]
    exact hbytes'

/-- **A line of a program at another origin.** -/
theorem isRelocated (hname : site.line.namesTarget = false)
    (hsymbols : List.Forall₂ (Symbol.IsShifted p.origin q.origin) p.symbols.toList q.symbols.toList)
    (hresolves : ∀ s ∈ (site.placed p.origin.toNat 1).statement?, s.Resolves p.symbols) :
    IsRelocated p q (site.placed p.origin.toNat 1) (site.placed q.origin.toNat 1) := by
  have hcode : (∀ s ∈ (site.placed p.origin.toNat 1).statement?, s.wordLabel? = none) →
      (site.placed q.origin.toNat 1).code q.symbols =
        (site.placed p.origin.toNat 1).code p.symbols :=
    code_placed 1 0 (Or.inr hname) (Symbols.movesTo_of_shifted hsymbols) hresolves
  refine ⟨rfl, rfl, ?_, fun hword => hcode fun s hs => ?_, exists_word hname hsymbols hresolves,
    fun hm hi hb => hcode fun s hs => ?_⟩
  · unfold placed
    dsimp only
    omega
  · unfold wordLabel? at hword
    rw [hs] at hword
    exact hword
  · obtain ⟨mnemonic', hm', hencode⟩ := exists_encode_of_statement? hs
    rw [hm] at hm'
    cases hm'
    exact Statement.wordLabel?_of_isBranch hencode hi hb

end Site

/-! ### Programs -/

namespace Program

variable {p q : Program} {all : List Line}

/-- The same lines at another origin: as many bytes, the same labels and lines, each of them as far from
the origin as before, and the bytes of the lines. -/
structure IsRelocated (p q : Program) (all : List Line) : Prop where
  length_bytes : q.bytes.length = p.bytes.length
  symbols : List.Forall₂ (Symbol.IsShifted p.origin q.origin) p.symbols.toList q.symbols.toList
  sites : List.Forall₂ (Site.IsRelocated p q) (p.sites all) (q.sites all)
  bytes : p.bytes = (p.sites all).flatMap (Site.code p.symbols)
  bytes' : q.bytes = (q.sites all).flatMap (Site.code q.symbols)

theorem IsAssembled.forall₂_symbols (hp : p.IsAssembled all) (hq : q.IsAssembled all) :
    List.Forall₂ (Symbol.IsShifted p.origin q.origin) p.symbols.toList q.symbols.toList := by
  rw [hp.make.own_eq, hq.make.own_eq]
  exact Site.forall₂_symbols hp.make.fits hq.make.fits

/-- **The same lines at two origins**: one program is the other one relocated. -/
theorem IsAssembled.isRelocated (hp : p.IsAssembled all) (hq : q.IsAssembled all)
    (hnames : ∀ line ∈ all, line.namesTarget = false) : p.IsRelocated q all := by
  have hsymbols := hp.forall₂_symbols hq
  refine ⟨hq.make.length_bytes.trans hp.make.length_bytes.symm, hsymbols, ?_, hp.make.bytes_eq,
    hq.make.bytes_eq⟩
  refine Site.forall₂_ofLines fun site hsite => ?_
  have hline : site.line ∈ all := by
    rw [← Site.map_line_ofLines 0 0 all]
    exact List.mem_map_of_mem hsite
  have hplaced : site.placed p.origin.toNat 1 ∈ p.sites all := by
    unfold sites
    rw [Site.ofLines_eq_map_placed]
    exact List.mem_map_of_mem hsite
  exact Site.isRelocated (hnames site.line hline) hsymbols fun s hs =>
    hp.make.resolves s (List.mem_filterMap.mpr ⟨_, hplaced, hs⟩)

/-- **A program fits at another origin** if its bytes do. -/
theorem IsAssembled.exists_at (hp : p.IsAssembled all)
    (hnames : ∀ line ∈ all, line.namesTarget = false)
    (hend : origin'.toNat + p.bytes.length < memorySize) :
    ∃ q : Program, q.origin = origin' ∧ q.IsAssembled all := by
  have hsites := Site.ofLines_eq_map_placed p.origin.toNat 1 all
  have hsites' := Site.ofLines_eq_map_placed origin'.toNat 1 all
  have hname : ∀ site ∈ Site.ofLines 0 0 all, site.line.namesTarget = false := by
    intro site hsite
    refine hnames site.line ?_
    rw [← Site.map_line_ofLines 0 0 all]
    exact List.mem_map_of_mem hsite
  have hfits : ∀ site ∈ Site.ofLines origin'.toNat 1 all, site.Fits := by
    rw [hsites', List.forall_mem_map]
    intro site hsite
    have hle := Site.end_le_of_mem_ofLines hsite
    rw [Nat.zero_add, ← hp.make.length_bytes] at hle
    have hfits := hp.make.fits (site.placed p.origin.toNat 1) (by
      rw [hsites]
      exact List.mem_map_of_mem hsite)
    exact hfits.placed 1 0 (Or.inr (hname site hsite)) (fun _ => by omega) fun _ => by omega
  obtain ⟨own, hown⟩ : ∃ own, own = (Site.ofLines origin'.toNat 1 all).filterMap Site.symbol? :=
    ⟨_, rfl⟩
  have hsymbols : List.Forall₂ (Symbol.IsShifted p.origin origin') p.symbols.toList own := by
    rw [hp.make.own_eq, hown]
    exact Site.forall₂_symbols hp.make.fits hfits
  have hresolves : ∀ s ∈ (Site.ofLines origin'.toNat 1 all).filterMap Site.statement?,
      s.Resolves ⟨own⟩ := by
    rw [hsites', List.filterMap_map]
    intro s hs
    obtain ⟨site, hsite, hs⟩ := List.mem_filterMap.mp hs
    refine Site.resolves_placed 1 0 (Or.inr (hname site hsite))
      (Symbols.movesTo_of_shifted hsymbols) (fun s hs => hp.make.resolves s ?_) s hs
    rw [hsites]
    exact List.mem_filterMap.mpr ⟨_, List.mem_map_of_mem hsite, hs⟩
  refine ⟨⟨origin', (Site.ofLines origin'.toNat 1 all).flatMap (Site.code ⟨own⟩), ⟨own⟩⟩, rfl,
    ⟨hfits, hown, hresolves, rfl⟩, ?_⟩
  rw [Symbols.map_name_of_shifted hsymbols]
  exact hp.nodup

/-- **Relocation.** A source text without branches to fixed addresses that assembles at one origin
assembles at every other one at which its bytes fit; and whenever it assembles at both, each program is
the other one relocated. -/
theorem relocates {source : List Char}
    (hnames : ∀ line ∈ (lines source).map Line.parse, line.namesTarget = false)
    (hp : assemble origin source = .ok p) :
    (origin'.toNat + p.bytes.length < memorySize → ∃ q, assemble origin' source = .ok q) ∧
      ∀ q, assemble origin' source = .ok q → p.origin = origin ∧ q.origin = origin' ∧
        p.IsRelocated q ((lines source).map Line.parse) := by
  obtain ⟨horigin, hp⟩ := assemble_eq_ok_iff_isAssembled.mp hp
  refine ⟨fun hend => ?_, fun q hq => ?_⟩
  · obtain ⟨q, hq⟩ := hp.exists_at hnames hend
    exact ⟨q, assemble_eq_ok_iff_isAssembled.mpr hq⟩
  · obtain ⟨horigin', hq⟩ := assemble_eq_ok_iff_isAssembled.mp hq
    exact ⟨horigin, horigin', hp.isRelocated hq hnames⟩

/-- A loop with an indexed label reference and a jump, at two origins of which the second puts its end at
the end of memory. -/
theorem relocates_to_the_end :
    ∃ p q, assemble 0x0600 "go: LDA tab,X\n BNE go\n BEQ $03\n JMP go\ntab:".toList = .ok p ∧
      assemble 0xFFF5 "go: LDA tab,X\n BNE go\n BEQ $03\n JMP go\ntab:".toList = .ok q ∧
      p.bytes = [0xBD, 0x0A, 0x06, 0xD0, 0xFB, 0xF0, 0x03, 0x4C, 0x00, 0x06] ∧
      q.bytes = [0xBD, 0xFF, 0xFF, 0xD0, 0xFB, 0xF0, 0x03, 0x4C, 0xF5, 0xFF] ∧
      p.IsRelocated q ((lines
        "go: LDA tab,X\n BNE go\n BEQ $03\n JMP go\ntab:".toList).map Line.parse) := by
  have hp : assemble 0x0600 "go: LDA tab,X\n BNE go\n BEQ $03\n JMP go\ntab:".toList =
      .ok ⟨0x0600, [0xBD, 0x0A, 0x06, 0xD0, 0xFB, 0xF0, 0x03, 0x4C, 0x00, 0x06],
        ⟨[⟨"go".toList, 0x0600, 1⟩, ⟨"tab".toList, 0x060A, 5⟩]⟩⟩ := by decide +kernel
  have hq : assemble 0xFFF5 "go: LDA tab,X\n BNE go\n BEQ $03\n JMP go\ntab:".toList =
      .ok ⟨0xFFF5, [0xBD, 0xFF, 0xFF, 0xD0, 0xFB, 0xF0, 0x03, 0x4C, 0xF5, 0xFF],
        ⟨[⟨"go".toList, 0xFFF5, 1⟩, ⟨"tab".toList, 0xFFFF, 5⟩]⟩⟩ := by decide +kernel
  exact ⟨_, _, hp, hq, rfl, rfl, ((relocates (by decide +kernel) hp).2 _ hq).2.2⟩

end Program

end Nmos6502
