import AmbientDecl.Doclet.Record
import AmbientDecl.Proofs.Run

/-!
# Records in normal form

A record may leave fields out, add others, and write one value in several ways. The record of a
doclet has every field, each written as the doclet has it, and is read back as that doclet.

**Values.** A decoder reads back what is written for it: scalars as they are, and lists and optional
values if their parts are read back (`Validation.list_map`, `Validation.orNull_optionalValue`).

**Members.** A member that stands first is found, and one with another name is passed over
(`Validation.field_cons_self`, `Validation.field_cons_ne`). So the record of each part is read back
as that part, and the members of a doclet as the doclet (`Doclet.decode_members`).

**Runs.** Loading the records of doclets gives the doclets and notes nothing. So what a first load
leaves of any records is not changed by a second one (`loadDoclets_toRecord`).
-/

namespace AmbientDecl

open Json

namespace Validation

variable {α : Type} {decoder : Decoder α} {write : α → Value} {ms : Members} {key name : String}

@[simp] lemma string_string (s : String) : string (.string s) = .valid s := rfl

@[simp] lemma truth_bool (b : Bool) : truth (.bool b) = .valid b := rfl

@[simp] lemma integer_int (n : Int) : integer (.int n) = .valid n := rfl

@[simp] lemma anything_eq (v : Value) : anything v = .valid v := rfl

lemma choice_name {choices : List (String × α)} {a : α} (h : choices.lookup name = some a) :
    choice choices (.string name) = .valid a := by
  simp [choice, h]

lemma itemsFrom_map (h : ∀ a, decoder (write a) = .valid a) :
    ∀ (l : List α) (start : Nat), itemsFrom decoder start (l.map write) = .valid l
  | [], _ => rfl
  | a :: rest, start => by simp [itemsFrom, h, itemsFrom_map h rest]

lemma list_map (h : ∀ a, decoder (write a) = .valid a) (l : List α) :
    list decoder (.array (l.map write)) = .valid l :=
  itemsFrom_map h l 0

/-- An optional value is read back if the value is and is not written as null. -/
lemma orNull_optionalValue (h : ∀ a, decoder (write a) = .valid a) (hnull : ∀ a, write a ≠ .null)
    (o : Option α) : orNull decoder (Doclet.optionalValue write o) = .valid o := by
  cases o with
  | none => rfl
  | some a =>
    rw [Doclet.optionalValue, orNull, h a]
    · rfl
    · exact hnull a

@[simp] lemma orNull_ofString? (o : Option String) : orNull string (.ofString? o) = .valid o := by
  cases o <;> rfl

@[simp] lemma orNull_ofInt? (o : Option Int) : orNull integer (.ofInt? o) = .valid o := by
  cases o <;> rfl

@[simp] lemma list_ofStrings (l : List String) : list string (.ofStrings l) = .valid l :=
  list_map string_string l

lemma lookup_cons_self (v : Value) : lookup name ((name, v) :: ms) = some v := by
  simp [lookup]

lemma lookup_cons_ne (h : key ≠ name) (v : Value) :
    lookup name ((key, v) :: ms) = lookup name ms := by
  simp [lookup, h]

@[simp] lemma required_cons_self (v : Value) :
    required ((name, v) :: ms) name decoder = (decoder v).under name := by
  simp [required, lookup_cons_self]

@[simp] lemma required_cons_ne (h : key ≠ name) (v : Value) :
    required ((key, v) :: ms) name decoder = required ms name decoder := by
  simp [required, lookup_cons_ne h]

@[simp] lemma field_cons_self (v : Value) (absent : α) :
    field ((name, v) :: ms) name decoder absent = (decoder v).under name := by
  simp [field, lookup_cons_self]

@[simp] lemma field_cons_ne (h : key ≠ name) (v : Value) (absent : α) :
    field ((key, v) :: ms) name decoder absent = field ms name decoder absent := by
  simp [field, lookup_cons_ne h]

end Validation

namespace Doclet

open Validation

@[simp] lemma decode_typeNames (t : TypeNames) : TypeNames.decode t.toValue = .valid t := by
  simp [TypeNames.decode, TypeNames.toValue, object]

@[simp] lemma decode_type? (o : Option TypeNames) :
    orNull TypeNames.decode (optionalValue TypeNames.toValue o) = .valid o :=
  orNull_optionalValue decode_typeNames (by simp [TypeNames.toValue]) o

@[simp] lemma decode_flag? (o : Option Bool) :
    orNull truth (optionalValue Value.bool o) = .valid o :=
  orNull_optionalValue truth_bool (by simp) o

lemma decode_param (p : Param) : Param.decode p.toValue = .valid p := by
  simp [Param.decode, Param.toValue, object]

@[simp] lemma decode_params (l : List Param) : list Param.decode (paramsValue l) = .valid l :=
  list_map decode_param l

lemma decode_return (r : Return) : Return.decode r.toValue = .valid r := by
  simp [Return.decode, Return.toValue, object]

@[simp] lemma decode_returns (l : List Return) : list Return.decode (returnsValue l) = .valid l :=
  list_map decode_return l

lemma decode_tag (t : Tag) : Tag.decode t.toValue = .valid t := by
  simp [Tag.decode, Tag.toValue, object]

@[simp] lemma decode_tags (l : List Tag) :
    list Tag.decode (.array (l.map Tag.toValue)) = .valid l :=
  list_map decode_tag l

lemma decode_location (location : SourceLocation) :
    decodeLocation (locationValue location) = .valid location := by
  simp [decodeLocation, locationValue, object]

@[simp] lemma decode_location? (o : Option SourceLocation) :
    orNull decodeLocation (optionalValue locationValue o) = .valid o :=
  orNull_optionalValue decode_location (by simp [locationValue]) o

/-- A flag stays a flag and a text a text, whatever word it is. -/
lemma decode_deprecation (d : Deprecation) : Deprecation.decode d.toValue = .valid d := by
  cases d <;> rfl

@[simp] lemma decode_deprecation? (o : Option Deprecation) :
    orNull Deprecation.decode (optionalValue Deprecation.toValue o) = .valid o := by
  refine orNull_optionalValue decode_deprecation ?_ o
  rintro (_ | _) <;> simp [Deprecation.toValue]

@[simp] lemma decode_scope? (o : Option Scope) :
    orNull (choice Scope.table) (optionalValue (fun s => .string s.name) o) = .valid o :=
  orNull_optionalValue (fun s => choice_name (by cases s <;> rfl)) (by simp) o

@[simp] lemma decode_access? (o : Option Access) :
    orNull (choice Access.table) (optionalValue (fun a => .string a.name) o) = .valid o :=
  orNull_optionalValue (fun a => choice_name (by cases a <;> rfl)) (by simp) o

/-- The members that depend on the kind are read back as what depends on it. -/
lemma decodeDetail_members (d : Doclet) : decodeDetail d.kindName d.members = .valid d.detail := by
  obtain ⟨name, longname, scope, memberof, access, since, deprecated, description, comment, ignore,
    undocumented, readonly, defaultValue, properties, tags, location, detail⟩ := d
  cases detail with
  | classLike c =>
    obtain ⟨form, _⟩ := c
    cases form <;>
      simp [kindName, ClassForm.name, decodeDetail, decodeClass, members, Detail.members]
  | value constant _ _ =>
    cases constant <;>
      simp [kindName, decodeDetail, decodeIsEnum, members, Detail.members, lookup]
  | container isModule => cases isModule <;> rfl
  | callable | typedef | package | file => simp [kindName, decodeDetail, members, Detail.members]

lemma decode_members (d : Doclet) : decode d.kindName d.members = .valid d := by
  rw [decode, decodeDetail_members]
  simp [members]

lemma kindName_mem (d : Doclet) : d.kindName ∈ kindNames := by
  unfold kindName
  split
  · rename_i c _
    cases c.form <;> simp [ClassForm.name, kindNames]
  all_goals simp [kindNames]
  all_goals split <;> simp

end Doclet

lemma loadRecord_toRecord (index : Nat) (d : Doclet) :
    loadRecord index d.toRecord = pure (some d) := by
  have hkind : lookup "kind" d.members = some (.string d.kindName) := by
    simp [Doclet.members, lookup]
  have hsupported : supportedKind? (.string d.kindName) = some d.kindName := by
    simp [supportedKind?, textOf?, Option.filter, d.kindName_mem]
  simp [Doclet.toRecord, loadRecord, hkind, hsupported, d.decode_members]

lemma loadFrom_toRecord (doclets : List Doclet) :
    ∀ index : Nat, loadFrom index (doclets.map Doclet.toRecord) = pure doclets := by
  induction doclets with
  | nil => exact fun _ => rfl
  | cons d rest ih =>
    intro index
    simp [loadFrom, loadRecord_toRecord, ih]

/-- Records of doclets are in normal form. Whatever records doclets come from, to load the records
of these doclets after them gives the same doclets and adds no diagnostic. -/
theorem loadDoclets_toRecord (records : List Value) :
    (loadDoclets records >>= fun doclets => loadDoclets (doclets.map Doclet.toRecord)) =
        loadDoclets records ∧
      ∀ doclets : List Doclet, loadDoclets (doclets.map Doclet.toRecord) = ⟨[], .ok doclets⟩ := by
  have hread : ∀ doclets : List Doclet, loadDoclets (doclets.map Doclet.toRecord) = pure doclets :=
    fun doclets => loadFrom_toRecord doclets 0
  refine ⟨?_, hread⟩
  simp only [hread, bind_pure]

end AmbientDecl
