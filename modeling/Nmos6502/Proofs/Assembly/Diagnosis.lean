import Mathlib.Data.Nat.Find
import Nmos6502.Proofs.Assembly.Placement
import Nmos6502.Proofs.Assembly.Sizes

/-!
# Which error is reported

Of the lines that the first pass refuses the first one is reported (`Layout.ofLines_of_isFirst`), and of
the statements that the second pass finds stranded the first one, if no line was refused
(`Statement.link_of_isFirst`). What is below a refused line changes nothing, since a line is refused for
what it is and for the lines before it (`Program.isFirst_refuses_append`). `Program.assemble_reports`
says this of a whole assembly, with the line and the text that the error names, and that no index and no
sum leaves its bounds on the way there (`Program.InBounds`).
-/

namespace Nmos6502

/-! ### The first of the lines that have a problem -/

/-- A line, told by its index, has a problem, and no line before it has any. -/
structure IsFirst (has : Nat → Problem → Prop) (k : Nat) (problem : Problem) : Prop where
  at_line : has k problem
  before : ∀ j < k, ∀ p, ¬ has j p

theorem exists_isFirst_or (has : Nat → Problem → Prop) :
    (∃ k problem, IsFirst has k problem) ∨ ∀ k problem, ¬ has k problem := by
  classical
  by_cases h : ∃ k problem, has k problem
  · obtain ⟨problem, hfirst⟩ := Nat.find_spec h
    exact Or.inl ⟨Nat.find h, problem, hfirst, fun j hj p hp => Nat.find_min h hj ⟨p, hp⟩⟩
  · push Not at h
    exact Or.inr h

/-- The lines behind the first one have a first problem, too, which is one place nearer. -/
theorem IsFirst.of_succ {has has' : Nat → Problem → Prop} {k : Nat} {problem : Problem}
    (h : IsFirst has (k + 1) problem) (hshift : ∀ j p, has (j + 1) p ↔ has' j p) :
    IsFirst has' k problem where
  at_line := (hshift k problem).mp h.at_line
  before j hj p hp := h.before (j + 1) (Nat.succ_lt_succ hj) p ((hshift j p).mpr hp)

namespace Site

/-- Of some lines behind earlier ones, the first pass has a problem with the one that has the given
index. -/
def RefusedAt (earlier sites : List Site) (k : Nat) (problem : Problem) : Prop :=
  ∃ site, sites[k]? = some site ∧ site.IsRefused (earlier ++ sites.take k) problem

/-- The second pass has a problem with the statement of a line. -/
def StrandedAt (symbols : Symbols) (sites : List Site) (k : Nat) (problem : Problem) : Prop :=
  ∃ site s, sites[k]? = some site ∧ site.statement? = some s ∧ s.IsStranded symbols problem

variable {earlier sites : List Site} {site : Site} {symbols : Symbols} {j k : Nat}
  {problem : Problem}

theorem refusedAt_zero :
    RefusedAt earlier (site :: sites) 0 problem ↔ site.IsRefused earlier problem := by
  simp [RefusedAt]

theorem refusedAt_succ : RefusedAt earlier (site :: sites) (k + 1) problem ↔
    RefusedAt (earlier ++ [site]) sites k problem := by
  simp [RefusedAt]

theorem strandedAt_succ : StrandedAt symbols (site :: sites) (k + 1) problem ↔
    StrandedAt symbols sites k problem := by
  simp [StrandedAt]

/-- The lines that come before every refused one have a place and fit. -/
theorem fits_of_not_refusedAt (h : ∀ j < k, ∀ p, ¬ RefusedAt earlier sites j p) (hj : j < k)
    (hsite : sites[j]? = some site) : site.HasPlace (earlier ++ sites.take j) ∧ site.Fits :=
  fits_of_not_isRefused fun problem hrefused => h j hj problem ⟨site, hsite, hrefused⟩

/-- The first pass comes to no line behind the end of memory. -/
theorem position_le_of_not_refusedAt {position number : Nat} {lines : List Line}
    (hp : position ≤ memorySize)
    (h : ∀ j < k, ∀ p, ¬ RefusedAt earlier (ofLines position number lines) j p)
    (hk : (ofLines position number lines)[k]? = some site) : site.position ≤ memorySize := by
  have hfits : ∀ other ∈ ofLines position number (lines.take k), other.Fits := by
    rw [← take_ofLines]
    intro other hother
    obtain ⟨j, hj⟩ := List.mem_iff_getElem?.mp hother
    rw [List.getElem?_take] at hj
    split at hj
    · next hlt => exact (fits_of_not_refusedAt h hlt hj).2
    · cases hj
  rw [getElem?_ofLines] at hk
  obtain ⟨line, -, rfl⟩ := Option.map_eq_some_iff.mp hk
  exact end_le_of_fits hp hfits

theorem refusedAt_append (others : List Site) (hk : k < sites.length) :
    RefusedAt earlier (sites ++ others) k problem ↔ RefusedAt earlier sites k problem := by
  unfold RefusedAt
  rw [List.getElem?_append_left hk, List.take_append_of_le_length hk.le]

/-- The lines before every refused one have different names. -/
theorem nodup_names_take (hnames : ((Site.symbols earlier).toList.map Symbol.name).Nodup)
    (h : ∀ j < k, ∀ p, ¬ RefusedAt earlier sites j p) :
    ((Site.symbols (earlier ++ sites.take k)).toList.map Symbol.name).Nodup := by
  induction k with
  | zero => simpa using hnames
  | succ k ih =>
    have hbefore := ih fun j hj => h j (Nat.lt_succ_of_lt hj)
    rw [List.take_add_one]
    cases hk : sites[k]? with
    | none => simpa using hbefore
    | some site =>
      rw [Option.toList_some, ← List.append_assoc]
      exact nodup_names_append hbefore (fits_of_not_refusedAt h (Nat.lt_succ_self k) hk).1

end Site

/-! ### The first pass -/

namespace Layout

variable {earlier : List Site} {position number k : Nat} {texts : List (List Char)}
  {text : List Char} {problem : Problem}

/-- **The first pass** reports the first line that is refused. -/
theorem ofLines_of_isFirst (hnames : ((Site.symbols earlier).toList.map Symbol.name).Nodup)
    (h : IsFirst (Site.RefusedAt earlier (Site.ofLines position number (texts.map Line.parse)))
      k problem) (ht : texts[k]? = some text) :
    ofLines (Site.symbols earlier) position number texts = .error ⟨problem, number + k, trim text⟩ := by
  induction texts generalizing earlier position number k with
  | nil => cases ht
  | cons first rest ih =>
    rw [List.map_cons, Site.ofLines] at h
    unfold ofLines
    cases k with
    | zero =>
      cases ht
      have hrefused := ofLine_of_isRefused hnames (Site.refusedAt_zero.mp h.at_line)
      dsimp only at hrefused
      rw [hrefused]
      rfl
    | succ k =>
      -- the line is not the first one that is refused, so it is placed and its label is known below
      obtain ⟨hplace, hfits⟩ := Site.fits_of_not_isRefused fun p hp =>
        h.before 0 (Nat.succ_pos k) p (Site.refusedAt_zero.mpr hp)
      have hfirst := ofLine_of_fits hnames hplace hfits
      have hrest := ih (Site.nodup_names_append hnames hplace)
        (h.of_succ fun _ _ => Site.refusedAt_succ) ht
      dsimp only at hfirst hrest
      rw [hfirst]
      dsimp only
      rw [hrest, Nat.add_assoc, Nat.add_comm 1 k]

/-- The first pass succeeds if no line is refused. -/
theorem ofLines_of_not_refusedAt {sites : List Site}
    (hsites : sites = Site.ofLines position number (texts.map Line.parse))
    (h : ∀ k p, ¬ Site.RefusedAt [] sites k p) :
    ofLines .empty position number texts = .ok ⟨sites.filterMap Site.statement?, Site.symbols sites,
      position + ((texts.map Line.parse).map Line.width).sum⟩ := by
  subst hsites
  have hempty : ((Site.symbols []).toList.map Symbol.name).Nodup := List.nodup_nil
  refine (ofLines_eq_ok_iff hempty).mpr ⟨fun site hs => ?_, ?_, rfl⟩
  · obtain ⟨k, hk⟩ := List.mem_iff_getElem?.mp hs
    exact (Site.fits_of_not_refusedAt (fun j _ => h j) (Nat.lt_succ_self k) hk).2
  · have hnames := Site.nodup_names_take hempty
      (k := (Site.ofLines position number (texts.map Line.parse)).length) fun j _ => h j
    rw [List.take_length] at hnames
    exact hnames

end Layout

/-! ### The second pass -/

namespace Statement

variable {symbols : Symbols} {sites : List Site} {site : Site} {texts : List (List Char)} {k : Nat}
  {problem : Problem}

/-- **The second pass** reports the first statement that is stranded. -/
theorem link_of_isFirst (h : IsFirst (Site.StrandedAt symbols sites) k problem)
    (hk : sites[k]? = some site) : link symbols texts (sites.filterMap Site.statement?) =
      .error ⟨problem, site.number, trim (texts.getD (site.number - 1) [])⟩ := by
  induction sites generalizing k with
  | nil => cases hk
  | cons first rest ih =>
    cases k with
    | zero =>
      cases hk
      obtain ⟨_, s, hsite, hs, hstranded⟩ := h.at_line
      cases hsite
      rw [List.filterMap_cons, hs]
      unfold link
      rw [resolve_eq_error_iff.mpr hstranded, Site.line_of_statement? hs]
    | succ k =>
      have hrest := ih (h.of_succ fun _ _ => Site.strandedAt_succ) hk
      rw [List.filterMap_cons]
      cases hs : first.statement? with
      | none => exact hrest
      | some s =>
        unfold link
        cases hresolve : s.resolve symbols with
        | ok s' =>
          dsimp only
          rw [hrest]
          rfl
        | error p =>
          have hstranded : Site.StrandedAt symbols (first :: rest) 0 p :=
            ⟨first, s, rfl, hs, resolve_eq_error_iff.mp hresolve⟩
          exact absurd hstranded (h.before 0 (Nat.succ_pos k) p)

/-- The second pass succeeds if no statement is stranded. -/
theorem exists_link_of_not_strandedAt (texts : List (List Char))
    (h : ∀ k p, ¬ Site.StrandedAt symbols sites k p) :
    ∃ bytes, link symbols texts (sites.filterMap Site.statement?) = .ok bytes := by
  refine ⟨_, link_eq_ok_iff.mpr ⟨fun s hs => ?_, rfl⟩⟩
  obtain ⟨site, hsite, hs⟩ := List.mem_filterMap.mp hs
  obtain ⟨k, hk⟩ := List.mem_iff_getElem?.mp hsite
  cases hresolve : s.resolve symbols with
  | ok s' => exact ⟨s', hresolve⟩
  | error p => exact absurd ⟨site, s, hk, hs, resolve_eq_error_iff.mp hresolve⟩ (h k p)

end Statement

/-! ### Source texts -/

namespace Site

/-- The lines of a source text where they stand. -/
def ofSource (origin : UInt16) (source : List Char) : List Site :=
  ofLines origin.toNat 1 ((lines source).map Line.parse)

variable {origin : UInt16} {source : List Char} {site : Site} {k : Nat}

/-- A line of a source text has a text and a number. -/
theorem exists_of_getElem?_ofSource (h : (ofSource origin source)[k]? = some site) :
    ∃ text, (lines source)[k]? = some text ∧ site.line = Line.parse text ∧ site.number = k + 1 := by
  rw [ofSource, getElem?_ofLines, List.getElem?_map] at h
  obtain ⟨line, hline, rfl⟩ := Option.map_eq_some_iff.mp h
  obtain ⟨text, htext, rfl⟩ := Option.map_eq_some_iff.mp hline
  exact ⟨text, htext, rfl, Nat.add_comm 1 k⟩

/-- Text below a source text leaves its lines where they are. -/
theorem exists_ofSource_append (origin : UInt16) (source more : List Char) :
    ∃ others, ofSource origin (source ++ '\n' :: more) = ofSource origin source ++ others := by
  obtain ⟨others, hothers⟩ := map_lines_prefix Line.parse_withoutReturn source more
  unfold ofSource
  rw [← hothers, ofLines_append]
  exact ⟨_, rfl⟩

end Site

/-- Text below a source text leaves the texts of its lines, but for a carriage return. -/
theorem exists_getElem?_lines_append {source text : List Char} {k : Nat} (more : List Char)
    (h : (lines source)[k]? = some text) :
    ∃ text', (lines (source ++ '\n' :: more))[k]? = some text' ∧ trim text' = trim text := by
  have hk : ((lines source).map trim)[k]? = some (trim text) := by
    rw [List.getElem?_map, h]
    rfl
  obtain ⟨others, hothers⟩ := map_lines_prefix trim_withoutReturn source more
  rw [← List.getElem?_append_left (List.getElem?_eq_some_iff.mp hk).1, hothers,
    List.getElem?_map] at hk
  exact Option.map_eq_some_iff.mp hk

namespace Program

/-- The first pass refuses the line of a source text that has the given index. -/
def Refuses (origin : UInt16) (source : List Char) : Nat → Problem → Prop :=
  Site.RefusedAt [] (Site.ofSource origin source)

/-- The second pass finds the statement of a line stranded. -/
def Strands (origin : UInt16) (source : List Char) : Nat → Problem → Prop :=
  Site.StrandedAt (Site.symbols (Site.ofSource origin source)) (Site.ofSource origin source)

variable {origin : UInt16} {source text : List Char} {k : Nat} {problem : Problem}

theorem exists_text_of_refuses (h : Refuses origin source k problem) :
    ∃ text, (lines source)[k]? = some text := by
  obtain ⟨site, hsite, -⟩ := h
  obtain ⟨text, htext, -⟩ := Site.exists_of_getElem?_ofSource hsite
  exact ⟨text, htext⟩

theorem assemble_of_isFirst_refuses (h : IsFirst (Refuses origin source) k problem)
    (ht : (lines source)[k]? = some text) :
    assemble origin source = .error ⟨problem, k + 1, trim text⟩ := by
  have hempty : ((Site.symbols []).toList.map Symbol.name).Nodup := List.nodup_nil
  have hlines := Layout.ofLines_of_isFirst hempty h ht
  unfold assemble
  dsimp only
  rw [show Symbols.empty = Site.symbols [] from rfl, hlines, Nat.add_comm 1 k]

/-- Text below a refused line changes nothing. -/
theorem isFirst_refuses_append (more : List Char) (h : IsFirst (Refuses origin source) k problem) :
    IsFirst (Refuses origin (source ++ '\n' :: more)) k problem := by
  obtain ⟨others, hothers⟩ := Site.exists_ofSource_append origin source more
  obtain ⟨site, hsite, -⟩ := h.at_line
  have hk := (List.getElem?_eq_some_iff.mp hsite).1
  unfold Refuses
  rw [hothers]
  refine ⟨(Site.refusedAt_append others hk).mpr h.at_line, fun j hj p hp => ?_⟩
  exact h.before j hj p ((Site.refusedAt_append others (hj.trans hk)).mp hp)

theorem assemble_of_not_refuses (h : ∀ k p, ¬ Refuses origin source k p) :
    assemble origin source = (Statement.link (Site.symbols (Site.ofSource origin source))
      (lines source) ((Site.ofSource origin source).filterMap Site.statement?)).map
        fun bytes => ⟨origin, bytes, Site.symbols (Site.ofSource origin source)⟩ := by
  have hlines := Layout.ofLines_of_not_refusedAt (rfl : Site.ofSource origin source = _) h
  unfold assemble
  dsimp only
  rw [hlines]

theorem assemble_of_isFirst_strands (h : ∀ k p, ¬ Refuses origin source k p)
    (hs : IsFirst (Strands origin source) k problem) : ∃ text, (lines source)[k]? = some text ∧
      assemble origin source = .error ⟨problem, k + 1, trim text⟩ := by
  obtain ⟨site, s, hsite, -, -⟩ := hs.at_line
  obtain ⟨text, ht, -, hnumber⟩ := Site.exists_of_getElem?_ofSource hsite
  refine ⟨text, ht, ?_⟩
  rw [assemble_of_not_refuses h, Statement.link_of_isFirst hs hsite, hnumber, Nat.add_sub_cancel,
    List.getD_eq_getElem?_getD, ht]
  rfl

/-- There are three ways in which an assembly can end. -/
theorem assemble_cases (origin : UInt16) (source : List Char) :
    (∃ k problem text, IsFirst (Refuses origin source) k problem ∧ (lines source)[k]? = some text ∧
      assemble origin source = .error ⟨problem, k + 1, trim text⟩) ∨
    (∀ k p, ¬ Refuses origin source k p) ∧
      ((∃ k problem text, IsFirst (Strands origin source) k problem ∧
        (lines source)[k]? = some text ∧
        assemble origin source = .error ⟨problem, k + 1, trim text⟩) ∨
      (∀ k p, ¬ Strands origin source k p) ∧ ∃ program, assemble origin source = .ok program) := by
  rcases exists_isFirst_or (Refuses origin source) with ⟨k, problem, hfirst⟩ | hnone
  · obtain ⟨text, ht⟩ := exists_text_of_refuses hfirst.at_line
    exact Or.inl ⟨k, problem, text, hfirst, ht, assemble_of_isFirst_refuses hfirst ht⟩
  · refine Or.inr ⟨hnone, ?_⟩
    rcases exists_isFirst_or (Strands origin source) with ⟨k, problem, hfirst⟩ | hnone'
    · obtain ⟨text, ht, he⟩ := assemble_of_isFirst_strands hnone hfirst
      exact Or.inl ⟨k, problem, text, hfirst, ht, he⟩
    · obtain ⟨bytes, hbytes⟩ := Statement.exists_link_of_not_strandedAt (lines source) hnone'
      rw [assemble_of_not_refuses hnone, hbytes]
      exact Or.inr ⟨hnone', _, rfl⟩

/-- What an assembly computes of a source text stays in bounds: no index is past the end of a list, and
no sum and no difference past those of the numbers used. -/
structure InBounds (origin : UInt16) (source : List Char) : Prop where
  /-- The address behind a statement that the first pass comes to has 32 bits. -/
  address {k : Nat} {site : Site} {s : Statement} : (∀ j < k, ∀ p, ¬ Refuses origin source j p) →
    (Site.ofSource origin source)[k]? = some site → site.statement? = some s →
      site.position + s.bytes.length < 2 ^ 32
  /-- What is laid out begins at the origin and ends in memory. -/
  extent {layout : Layout} : Layout.ofLines .empty origin.toNat 1 (lines source) = .ok layout →
    origin.toNat ≤ layout.position ∧ layout.position ≤ memorySize
  /-- A statement has the number of a line. -/
  line {site : Site} {s : Statement} : site ∈ Site.ofSource origin source →
    site.statement? = some s → 0 < s.line ∧ s.line ≤ (lines source).length
  /-- A statement that waits for a label has room for its address behind the opcode. -/
  room {site : Site} {s : Statement} {name : List Char} {kind : Reference} :
    site ∈ Site.ofSource origin source → site.statement? = some s → s.label = some (name, kind) →
      kind.size < s.bytes.length
  /-- An operand has the bytes that are taken from it. -/
  operand {mode : AddressingMode} {token : List Char} {bytes : List UInt8} :
    mode.parse? token = some bytes → bytes.length = mode.operandSize

/-- A source text of less than 2³² bytes stays in bounds. -/
theorem inBounds (h : Label.utf8Size source < 2 ^ 32) : InBounds origin source where
  address {k site s} hbefore hsite hs := by
    have hposition := Site.position_le_of_not_refusedAt (Nat.le_of_lt origin.toNat_lt) hbefore hsite
    obtain ⟨text, ht, hline, -⟩ := Site.exists_of_getElem?_ofSource hsite
    obtain ⟨mnemonic, -, hencode⟩ := Site.exists_encode_of_statement? hs
    have hbytes := Statement.length_bytes_encode hencode
    have hoperand := (Line.operand_sublist text).length_le
    have htext := length_le_of_mem_lines (List.mem_of_getElem? ht)
    have hsource := Label.length_le_utf8Size source
    have hmemory : memorySize = 0x10000 := rfl
    rw [hline] at hbytes
    omega
  extent {layout} hlayout := by
    have hempty : (Symbols.empty.toList.map Symbol.name).Nodup := List.nodup_nil
    obtain ⟨hfits, -, rfl⟩ := (Layout.ofLines_eq_ok_iff hempty).mp hlayout
    exact ⟨Nat.le_add_right _ _, Site.end_le_of_fits (Nat.le_of_lt origin.toNat_lt) hfits⟩
  line {site s} hsite hs := by
    obtain ⟨k, hk⟩ := List.mem_iff_getElem?.mp hsite
    obtain ⟨text, ht, -, hnumber⟩ := Site.exists_of_getElem?_ofSource hk
    rw [Site.line_of_statement? hs, hnumber]
    exact ⟨Nat.succ_pos k, (List.getElem?_eq_some_iff.mp ht).1⟩
  room _ hs hl := by
    obtain ⟨mnemonic, -, hencode⟩ := Site.exists_encode_of_statement? hs
    exact Statement.size_lt_of_label hencode hl
  operand := AddressingMode.length_of_parse?

/-- What an assembly reports. -/
structure Reports (origin : UInt16) (source : List Char) : Prop where
  /-- The first line that is refused, whatever labels are undefined and whatever text comes below. -/
  refused {k : Nat} {problem : Problem} : IsFirst (Refuses origin source) k problem →
    ∃ text, (lines source)[k]? = some text ∧
      assemble origin source = .error ⟨problem, k + 1, trim text⟩ ∧
      ∀ more, assemble origin (source ++ '\n' :: more) = .error ⟨problem, k + 1, trim text⟩
  /-- If no line is refused, the first statement that is stranded. -/
  stranded {k : Nat} {problem : Problem} : (∀ j p, ¬ Refuses origin source j p) →
    IsFirst (Strands origin source) k problem → ∃ text, (lines source)[k]? = some text ∧
      assemble origin source = .error ⟨problem, k + 1, trim text⟩
  /-- If there is no such line either, nothing. -/
  ok : (∃ program, assemble origin source = .ok program) ↔
    ∀ k p, ¬ Refuses origin source k p ∧ ¬ Strands origin source k p
  /-- An error is one of these, has the number of a line, and quotes the line without the blanks around
  it. -/
  error {e : AssemblyError} : assemble origin source = .error e →
    0 < e.line ∧ e.line ≤ (lines source).length ∧
      (∃ text, (lines source)[e.line - 1]? = some text ∧ e.text = trim text) ∧
      (IsFirst (Refuses origin source) (e.line - 1) e.problem ∨
        (∀ j p, ¬ Refuses origin source j p) ∧
          IsFirst (Strands origin source) (e.line - 1) e.problem)
  inBounds : InBounds origin source

/-- **The error that is reported.** An assembly reports the first line that is refused, or, if none is,
the first statement that is stranded, or nothing. -/
theorem assemble_reports (origin : UInt16) (source : List Char)
    (hsize : Label.utf8Size source < 2 ^ 32) : Reports origin source where
  refused {k problem} h := by
    obtain ⟨text, ht⟩ := exists_text_of_refuses h.at_line
    refine ⟨text, ht, assemble_of_isFirst_refuses h ht, fun more => ?_⟩
    obtain ⟨text', ht', htrim⟩ := exists_getElem?_lines_append more ht
    rw [assemble_of_isFirst_refuses (isFirst_refuses_append more h) ht', htrim]
  stranded := assemble_of_isFirst_strands
  ok := by
    constructor
    · rintro ⟨program, hok⟩
      obtain ⟨_, _, _, -, -, he⟩ | ⟨hnone, ⟨_, _, _, -, -, he⟩ | ⟨hnone', -⟩⟩ :=
        assemble_cases origin source
      · cases hok.symm.trans he
      · cases hok.symm.trans he
      · exact fun k p => ⟨hnone k p, hnone' k p⟩
    · intro hnone
      obtain ⟨k, p, _, hfirst, -⟩ | ⟨-, ⟨k, p, _, hfirst, -⟩ | ⟨-, hok⟩⟩ :=
        assemble_cases origin source
      · exact absurd hfirst.at_line (hnone k p).1
      · exact absurd hfirst.at_line (hnone k p).2
      · exact hok
  error {e} he := by
    obtain ⟨k, p, text, hfirst, ht, he'⟩ | ⟨hnone, ⟨k, p, text, hfirst, ht, he'⟩ | ⟨-, _, hok⟩⟩ :=
      assemble_cases origin source
    · cases he.symm.trans he'
      exact ⟨Nat.succ_pos k, (List.getElem?_eq_some_iff.mp ht).1, ⟨text, ht, rfl⟩, Or.inl hfirst⟩
    · cases he.symm.trans he'
      exact ⟨Nat.succ_pos k, (List.getElem?_eq_some_iff.mp ht).1, ⟨text, ht, rfl⟩,
        Or.inr ⟨hnone, hfirst⟩⟩
    · cases he.symm.trans hok
  inBounds := inBounds hsize

/-- A bad operand is reported below an undefined label and above a branch that is out of range, whatever
else follows. -/
theorem assemble_reports_bad_operand :
    Label.utf8Size " JMP nowhere\n LDA #$100 ; too long\n BNE $0700".toList < 2 ^ 32 ∧
    ∀ more, assemble 0x0600 (" JMP nowhere\n LDA #$100 ; too long\n BNE $0700".toList ++ '\n' :: more) =
      .error ⟨.badOperand .lda "#$100".toList, 2, "LDA #$100 ; too long".toList⟩ := by
  have hsize : Label.utf8Size " JMP nowhere\n LDA #$100 ; too long\n BNE $0700".toList < 2 ^ 32 := by
    decide +kernel
  have h : assemble 0x0600 " JMP nowhere\n LDA #$100 ; too long\n BNE $0700".toList =
      .error ⟨.badOperand .lda "#$100".toList, 2, "LDA #$100 ; too long".toList⟩ := by decide +kernel
  have hreports := assemble_reports 0x0600 _ hsize
  refine ⟨hsize, fun more => ?_⟩
  obtain ⟨-, -, -, hfirst | ⟨-, hfirst⟩⟩ := hreports.error h
  · obtain ⟨text, -, he, hmore⟩ := hreports.refused hfirst
    rw [hmore more, ← he, h]
  · obtain ⟨_, _, -, -, hstranded⟩ := hfirst.at_line
    cases hstranded

end Program

end Nmos6502
