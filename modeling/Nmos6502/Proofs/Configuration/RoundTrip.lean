import Nmos6502.Configuration.Library
import Nmos6502.Proofs.Json.Spelling

/-!
# Configurations in text and back

A configuration stands for a plain JSON value (`Configuration.isPlain_toJson`) that describes it
(`Configuration.configures_toJson`), and the layout of that value spells it. So whatever library does
what is documented of it reads back every configuration that it has written
(`Configuration.reads_back`). The library of this development is one of those
(`JsonLibrary.isDocumented_own`).
-/

namespace Nmos6502

/-! ### The value of a configuration -/

namespace Json

theorem allPlain_map {α : Type} {f : α → Json} (h : ∀ a, (f a).IsPlain) (items : List α) :
    AllPlain (items.map f) := by
  induction items with
  | nil => exact .nil
  | cons item items ih => exact .cons (h item) ih

theorem depthOfItems_map_le {α : Type} {f : α → Json} {n : Nat} (h : ∀ a, (f a).depth ≤ n)
    (items : List α) : depthOfItems (items.map f) ≤ n := by
  induction items with
  | nil => exact Nat.zero_le n
  | cons item items ih => exact Nat.max_le.mpr ⟨h item, ih⟩

theorem isPlain_address (a : UInt16) : (natural a.toNat).IsPlain :=
  .natural (Nat.lt_trans a.toNat_lt (by decide))

theorem isPlain_byte (b : UInt8) : (natural b.toNat).IsPlain :=
  .natural (Nat.lt_trans b.toNat_lt (by decide))

end Json

namespace Description

theorem isPlain_toJson (d : Description) : d.toJson.IsPlain := by
  have hkind : (Json.string (some d.kind.name)).IsPlain := .string (by cases d.kind <;> rfl)
  refine .object (.cons rfl hkind ?_)
  cases d with
  | ram first last =>
    have hend : Json.AllMembersPlain [(some endKey, .natural last.toNat)] :=
      .cons rfl (Json.isPlain_address last) .nil
    exact .cons rfl (Json.isPlain_address first) hend
  | rom first last image =>
    have himage : Json.AllMembersPlain
        [(some imageKey, .array (image.map fun b => .natural b.toNat))] :=
      .cons rfl (.array (Json.allPlain_map Json.isPlain_byte image)) .nil
    exact .cons rfl (Json.isPlain_address first) (.cons rfl (Json.isPlain_address last) himage)
  | pia first => exact .cons rfl (Json.isPlain_address first) .nil
  | screen first => exact .cons rfl (Json.isPlain_address first) .nil

theorem depth_toJson (d : Description) : d.toJson.depth ≤ 2 := by
  cases d with
  | rom first last image =>
    have himage : Json.depthOfItems (image.map fun b => .natural b.toNat) ≤ 0 :=
      Json.depthOfItems_map_le (fun _ => Nat.le_refl 0) image
    have hdepth : (rom first last image).toJson.depth =
        max 0 (max 0 (max 0 (max (Json.depthOfItems (image.map fun b => .natural b.toNat) + 1) 0))) +
          1 := rfl
    omega
  | ram first last => exact Nat.le_succ 1
  | pia first => exact Nat.le_succ 1
  | screen first => exact Nat.le_succ 1

/-- **A device** is described by its value. -/
theorem describes_toJson (d : Description) : d.toJson.Describes d := by
  cases d with
  | ram first last => exact .ram rfl rfl rfl
  | rom first last image => exact .rom rfl rfl rfl rfl
  | pia first => exact .pia rfl rfl
  | screen first => exact .screen rfl rfl

end Description

namespace Configuration

theorem isPlain_toJson (c : Configuration) : c.toJson.IsPlain :=
  .object (.cons rfl (.array (Json.allPlain_map Description.isPlain_toJson c.devices)) .nil)

theorem depth_toJson (c : Configuration) : c.toJson.depth ≤ 4 := by
  have hdevices := Json.depthOfItems_map_le Description.depth_toJson c.devices
  have hdepth : c.toJson.depth =
      max (Json.depthOfItems (c.devices.map Description.toJson) + 1) 0 + 1 := rfl
  omega

/-- **A configuration** is described by its value. -/
theorem configures_toJson (c : Configuration) : c.toJson.Configures c := by
  refine ⟨_, _, rfl, rfl, ?_⟩
  rw [List.forall₂_map_left_iff, List.forall₂_same]
  exact fun d _ => d.describes_toJson

end Configuration

/-! ### Any library -/

namespace JsonLibrary

variable {lib : JsonLibrary}

/-- **A configuration** is written as its layout, and read back from it. -/
theorem IsDocumented.read?_of_write (h : lib.IsDocumented) (c : Configuration) :
    lib.write? c = some c.toText ∧ lib.read? c.toText = some c := by
  have hspells := Json.spells_layout c.isPlain_toJson 0
  have hdepth : c.toJson.depth < nesting := Nat.lt_of_le_of_lt c.depth_toJson (by decide)
  have hparse := h.parse hspells (Json.pads_self _) hdepth
  refine ⟨?_, ?_⟩
  · unfold write?
    rw [h.toValue, h.print c.isPlain_toJson]
    rfl
  · unfold read?
    rw [Configuration.toText, hparse]
    exact h.ofValue c.isPlain_toJson hdepth c.configures_toJson

end JsonLibrary

/-- **Every configuration** is read back from the text that a library writes for it. So whatever text
it reads a configuration from, the text that it writes for that is read as the same one, and is what it
writes for that again. -/
theorem Configuration.reads_back {lib : JsonLibrary} (h : lib.IsDocumented) :
    (∀ c, ∃ text, lib.write? c = some text ∧ lib.read? text = some c) ∧
      ∀ text c, lib.read? text = some c → ∃ text', lib.write? c = some text' ∧
        lib.read? text' = some c ∧ (lib.read? text').bind lib.write? = some text' := by
  refine ⟨fun c => ⟨c.toText, h.read?_of_write c⟩, fun text c _ => ?_⟩
  obtain ⟨hwrite, hread⟩ := h.read?_of_write c
  refine ⟨c.toText, hwrite, hread, ?_⟩
  rw [hread]
  exact hwrite

/-! ### The library of this development -/

namespace Json

theorem natural?_natural (n : Nat) : (natural n).natural? = some n :=
  Number.natural?_ofNat n

@[simp] theorem address?_natural (a : UInt16) : (natural a.toNat).address? = some a := by
  unfold address?
  rw [natural?_natural, Option.bind_some, if_pos a.toNat_lt, UInt16.ofNat_toNat]

theorem byte?_natural (b : UInt8) : (natural b.toNat).byte? = some b := by
  unfold byte?
  rw [natural?_natural, Option.bind_some, if_pos b.toNat_lt, UInt8.ofNat_toNat]

/-- What is read back one by one is read back as a whole. -/
theorem mapM_eq_of_forall₂ {α β : Type} {f : α → Option β} {items : List α} {results : List β}
    (h : List.Forall₂ (fun item result => f item = some result) items results) :
    items.mapM f = some results := by
  induction h with
  | nil => rfl
  | cons hfirst _ ih => rw [List.mapM_cons, hfirst, ih]; rfl

@[simp] theorem bytes?_naturals (image : List UInt8) :
    (array (image.map fun b => natural b.toNat)).bytes? = some image := by
  refine mapM_eq_of_forall₂ ?_
  rw [List.forall₂_map_left_iff, List.forall₂_same]
  exact fun b _ => byte?_natural b

theorem mem_of_has {members : List (JsonText × Json)} {key : List Char} {value : Json}
    (h : Has members key value) : (some key, value) ∈ members := by
  unfold Has member? at h
  split at h
  · cases h
  · next m hm =>
    have hmem : m ∈ members.filter fun m => m.1 == some key := by
      rw [hm]
      exact List.mem_singleton_self m
    obtain ⟨hmember, hkey⟩ := List.mem_filter.mp hmem
    obtain rfl : m.2 = value := Option.some.inj (Option.some.inj h)
    rwa [← beq_iff_eq.mp hkey]
  · cases h

end Json

namespace Description

/-- What an object is depends on its kind. -/
theorem ofJson?_of_hasKind {members : List (JsonText × Json)} {kind : DeviceKind}
    (h : Json.HasKind members kind) (husable : (Json.object members).isUsable levels = true) :
    ofJson? (.object members) = ofMembers? (Json.member? members) kind := by
  unfold ofJson?
  unfold Json.HasKind Json.Has at h
  rw [if_pos husable]
  simp [h, Json.kind?, DeviceKind.ofName?_name]

/-- **A device** is read from a value that describes it. -/
theorem ofJson?_of_describes {value : Json} {d : Description} (h : value.Describes d)
    (hplain : value.IsPlain) (hdepth : value.depth ≤ levels) : ofJson? value = some d := by
  have husable := Json.isUsable_of_isPlain hplain hdepth
  cases h with
  | ram hkind hstart hend =>
    unfold Json.HasAddress Json.Has at hstart hend
    rw [ofJson?_of_hasKind hkind husable]
    simp +decide [ofMembers?, ofFields?, hstart, hend]
  | rom hkind hstart hend himage =>
    unfold Json.HasAddress Json.Has at hstart hend
    unfold Json.Has at himage
    rw [ofJson?_of_hasKind hkind husable]
    simp +decide [ofMembers?, ofFields?, hstart, hend, himage]
  | romWithoutImage hkind hstart hend himage =>
    unfold Json.HasAddress Json.Has at hstart hend
    rw [ofJson?_of_hasKind hkind husable]
    simp +decide [ofMembers?, ofFields?, hstart, hend, himage]
  | pia hkind hstart =>
    unfold Json.HasAddress Json.Has at hstart
    rw [ofJson?_of_hasKind hkind husable]
    simp +decide [ofMembers?, ofFields?, hstart]
  | screen hkind hstart =>
    unfold Json.HasAddress Json.Has at hstart
    rw [ofJson?_of_hasKind hkind husable]
    simp +decide [ofMembers?, ofFields?, hstart]

end Description

namespace Configuration

/-- **A configuration** is read from a value that describes it. -/
theorem ofJson?_of_configures {value : Json} {c : Configuration} (h : value.Configures c)
    (hplain : value.IsPlain) (hdepth : value.depth < JsonLibrary.nesting) :
    ofJson? value = some c := by
  obtain ⟨members, items, rfl, hitems, hdescribes⟩ := h
  obtain hmembers : Json.AllMembersPlain members := by
    cases hplain with
    | object hmembers => exact hmembers
  obtain ⟨-, harray, hinner⟩ := Json.isPlain_of_mem_members hmembers (Json.mem_of_has hitems)
  have hall : Json.AllPlain items := by
    cases harray with
    | array hall => exact hall
  have hkeys : (members.all fun m => m.1.isSome) = true :=
    List.all_eq_true.mpr fun m hm => (Json.isPlain_of_mem_members hmembers hm).1
  -- Below the object and the array a device is nested less deeply by two.
  have hlevels : Json.depthOfItems items ≤ Description.levels := by
    change Json.depthOfItems items + 1 ≤ Json.depthOfMembers members at hinner
    change Json.depthOfMembers members + 1 < 128 at hdepth
    change _ ≤ 125
    omega
  have hdevices : items.mapM Description.ofJson? = some c.devices := by
    have hplains : ∀ item ∈ items, item.IsPlain ∧ item.depth ≤ Description.levels := by
      intro item hitem
      obtain ⟨hplain, hle⟩ := Json.isPlain_of_mem hall hitem
      exact ⟨hplain, Nat.le_trans hle hlevels⟩
    refine Json.mapM_eq_of_forall₂ ((List.forall₂_and_left _ _).mpr ⟨hplains, hdescribes⟩ |>.imp ?_)
    rintro item d ⟨⟨hplain, hdepth⟩, hdescribes⟩
    exact Description.ofJson?_of_describes hdescribes hplain hdepth
  unfold Json.Has at hitems
  unfold ofJson?
  simp [hkeys, hitems, Json.items?, hdevices]

end Configuration

namespace JsonLibrary

/-- **The library of this development** does what is documented of such libraries. -/
theorem isDocumented_own : own.IsDocumented where
  parse hspells hpads _ := Json.ofText?_of_spells hspells hpads
  print _ := rfl
  toValue _ := rfl
  ofValue hplain hdepth h := Configuration.ofJson?_of_configures h hplain hdepth

end JsonLibrary

/-- A text in which the configuration and its only device are written as arrays, and the device has
no image and ends before it begins. -/
theorem Configuration.reads_back_from_arrays :
    let text := ['[', '[', '[', '"', 'r', 'o', 'm', '"', ',', '5', ',', '3', ']', ']', ']']
    let c : Configuration := ⟨[.rom 5 3 []]⟩
    JsonLibrary.own.read? text = some c ∧ ∃ text' ≠ text, JsonLibrary.own.write? c = some text' ∧
      (JsonLibrary.own.read? text').bind JsonLibrary.own.write? = some text' := by
  intro text c
  have hread : JsonLibrary.own.read? text = some c := by decide +kernel
  obtain ⟨text', hwrite, -, hfixed⟩ :=
    (Configuration.reads_back JsonLibrary.isDocumented_own).2 text c hread
  refine ⟨hread, text', ?_, hwrite, hfixed⟩
  rintro rfl
  exact absurd hwrite (by decide +kernel)

end Nmos6502
