import DiagramLayout.Shapes.Path
import Mathlib.Algebra.Group.Nat.Defs
import Mathlib.Data.List.Basic

/-!
# The paths of a place

The number of a component may be written in several ways, with zeros in front and with the digits of any
script; everything else in a path is read as it stands. So a place has one path that writes the number
plainly, and the other paths of the place differ from it in the digits only.
-/

namespace DiagramLayout

/-! ## Parts of a text -/

namespace Text

/-- A separator divides a text into the parts before it and those after it. -/
theorem parts_append (separator : Char) (as bs : List Char) :
    parts separator (as ++ separator :: bs) = parts separator as ++ parts separator bs := by
  induction as with
  | nil =>
    cases h : parts separator bs with
    | nil => exact absurd h (parts_ne_nil separator bs)
    | cons part rest => simp [parts, h]
  | cons c as ih =>
    rw [List.cons_append, parts, parts, ih]
    cases h : parts separator as with
    | nil => exact absurd h (parts_ne_nil separator as)
    | cons part rest =>
      simp only [List.cons_append]
      split <;> rfl

theorem parts_of_not_mem {separator : Char} {cs : List Char} (h : separator ∉ cs) :
    parts separator cs = [cs] := by
  induction cs with
  | nil => rfl
  | cons c cs ih =>
    rw [List.mem_cons, not_or] at h
    rw [parts, ih h.2]
    exact if_neg (Ne.symm h.1)

/-- No part has a separator. -/
theorem not_mem_of_mem_parts {separator : Char} {cs part : List Char}
    (h : part ∈ parts separator cs) : separator ∉ part := by
  induction cs generalizing part with
  | nil =>
    rw [parts, List.mem_singleton] at h
    simp [h]
  | cons c cs ih =>
    rw [parts] at h
    split at h
    · next hnil => exact absurd hnil (parts_ne_nil separator cs)
    · next first rest hparts =>
      have hfirst : separator ∉ first := ih (by simp [hparts])
      have hrest : ∀ part ∈ rest, separator ∉ part := fun part hpart => ih (by simp [hparts, hpart])
      split at h
      · rcases List.mem_cons.mp h with rfl | h
        · simp
        · rcases List.mem_cons.mp h with rfl | h
          · exact hfirst
          · exact hrest part h
      · next hc =>
        rcases List.mem_cons.mp h with rfl | h
        · simp [Ne.symm hc, hfirst]
        · exact hrest part h

/-! ## Digits -/

theorem decimalDigit?_of_isDigit {c : Char} (h : c.isDigit = true) :
    decimalDigit? c = some (c.toNat - '0'.toNat) := by
  have hrange : 0x30 ≤ c.toNat ∧ c.toNat < 0x30 + 10 := by
    simp only [Char.isDigit, Bool.and_eq_true, decide_eq_true_eq, UInt32.le_iff_toNat_le] at h
    change 48 ≤ c.toNat ∧ c.toNat ≤ 57 at h
    omega
  rw [decimalDigit?, decimalZeros, List.find?_cons_of_pos (by simpa using hrange)]
  rfl

theorem isDigit_of_isDigit {c : Char} (h : c.isDigit = true) : isDigit c = true := by
  rw [isDigit, decimalDigit?_of_isDigit h]
  rfl

theorem decimalDigit?_lt {c : Char} {d : Nat} (h : decimalDigit? c = some d) : d < 10 := by
  obtain ⟨first, hfirst, rfl⟩ := Option.map_eq_some_iff.mp h
  have hrange := List.find?_some hfirst
  simp only [decide_eq_true_eq] at hrange
  omega

theorem mapM_decimalDigit? {cs : List Char} (h : ∀ c ∈ cs, c.isDigit = true) :
    cs.mapM decimalDigit? = some (cs.map fun c => c.toNat - '0'.toNat) := by
  induction cs with
  | nil => rfl
  | cons c cs ih =>
    obtain ⟨hc, hcs⟩ := List.forall_mem_cons.mp h
    simp [decimalDigit?_of_isDigit hc, ih hcs]

theorem isDigit_toDigits (i : Nat) : ∀ c ∈ Nat.toDigits 10 i, c.isDigit = true :=
  fun _ => Nat.isDigit_of_mem_toDigits (by decide) (by decide)

/-- The digits of a number that is not too long to be read are read as the number. -/
theorem readNatural?_toDigits {i : Nat} (h : i < 10 ^ digitLimit) :
    readNatural? (Nat.toDigits 10 i) = some i := by
  have hlength : (Nat.toDigits 10 i).length ≤ digitLimit :=
    (Nat.length_toDigits_le_iff (by decide) (by decide)).mpr h
  rw [readNatural?, if_neg (not_or.mpr ⟨Nat.toDigits_ne_nil, Nat.not_lt.mpr hlength⟩),
    mapM_decimalDigit? (isDigit_toDigits i), Option.map_some, List.foldl_map]
  exact congrArg some Nat.ofDigitChars_ten_toDigits

/-- A number that is read is not too long to be written. -/
theorem readNatural?_lt {cs : List Char} {i : Nat} (h : readNatural? cs = some i) :
    i < 10 ^ digitLimit := by
  have hfold : ∀ (cs : List Char) (ds : List Nat) (n : Nat), cs.mapM decimalDigit? = some ds →
      List.foldl (fun n d => 10 * n + d) n ds < (n + 1) * 10 ^ cs.length := by
    intro cs
    induction cs with
    | nil =>
      intro ds n hds
      cases hds
      simp
    | cons c cs ih =>
      intro ds n hds
      simp only [List.mapM_cons, Option.bind_eq_bind, Option.bind_eq_some_iff] at hds
      obtain ⟨d, hd, rest, hrest, hds⟩ := hds
      cases hds
      have hlt := decimalDigit?_lt hd
      calc List.foldl (fun n d => 10 * n + d) (10 * n + d) rest
          < (10 * n + d + 1) * 10 ^ cs.length := ih rest _ hrest
        _ ≤ (n + 1) * 10 * 10 ^ cs.length := Nat.mul_le_mul_right _ (by omega)
        _ = (n + 1) * 10 ^ (c :: cs).length := by
          rw [List.length_cons, Nat.pow_succ, Nat.mul_assoc, Nat.mul_comm 10]
  rw [readNatural?] at h
  split at h
  · cases h
  · next hshort =>
    obtain ⟨ds, hds, rfl⟩ := Option.map_eq_some_iff.mp h
    have hbound := hfold cs ds 0 hds
    rw [Nat.zero_add, Nat.one_mul] at hbound
    exact Nat.lt_of_lt_of_le hbound
      (Nat.pow_le_pow_right (by decide) (Nat.not_lt.mp (not_or.mp hshort).2))

end Text

/-! ## Paths -/

namespace Shapes.Path

variable {path path' : String} {p : Path}

/-- The path of the property that a place is or belongs to. -/
def whole (p : Path) : String := p.shape ++ "." ++ p.property

/-- The plain path of a place. The number of a component has no zeros in front. -/
def text (p : Path) : String :=
  match p.component with
  | none => p.whole
  | some i => componentPath p.whole i

/-- A path that writes the number of a component plainly. -/
def Plain (path : String) : Prop := ∀ p, Path.read path = .ok p → path = p.text

/-- The characters of a path, which has two parts or, with a component, three. -/
theorem read_eq_ok_iff : Path.read path = .ok p ↔
    (p.component = none ∧ Text.parts '.' path.toList = [p.shape.toList, p.property.toList]) ∨
      ∃ digits i, p.component = some i ∧
        Text.parts '.' path.toList = [p.shape.toList, p.property.toList, digits] ∧ digits ≠ [] ∧
        digits.all Text.isDigit = true ∧ Text.readNatural? digits = some i := by
  obtain ⟨shape, property, component⟩ := p
  unfold Path.read
  constructor
  · intro h
    split at h
    · next hparts =>
      cases h
      exact .inl ⟨rfl, by simpa using hparts⟩
    · next digits hparts =>
      split at h
      · next hdigits =>
        split at h
        · next i hi =>
          cases h
          exact .inr ⟨digits, i, rfl, by simpa using hparts, hdigits.1, hdigits.2, hi⟩
        · cases h
      · cases h
    · cases h
  · rintro (⟨rfl, hparts⟩ | ⟨digits, i, rfl, hparts, hne, hdigits, hi⟩)
    · simp [hparts]
    · simp only [hparts, hdigits, hi, ne_eq, hne, not_false_eq_true, and_self, ↓reduceIte,
        String.ofList_toList]

theorem parts_componentPath (path : String) (i : Nat) :
    Text.parts '.' (componentPath path i).toList =
      Text.parts '.' path.toList ++ [Nat.toDigits 10 i] := by
  have hdot : '.' ∉ Nat.toDigits 10 i := fun h => by
    have := Text.isDigit_toDigits i '.' h
    cases this
  have htext : (componentPath path i).toList = path.toList ++ '.' :: Nat.toDigits 10 i := by
    simp [componentPath, Nat.toString_eq_repr, Nat.toList_repr]
  rw [htext, Text.parts_append, Text.parts_of_not_mem hdot]

theorem parts_whole (h : Path.read path = .ok p) :
    Text.parts '.' p.whole.toList = [p.shape.toList, p.property.toList] := by
  have hdots : '.' ∉ p.shape.toList ∧ '.' ∉ p.property.toList := by
    rcases read_eq_ok_iff.mp h with ⟨_, hparts⟩ | ⟨_, _, _, hparts, _⟩
    all_goals exact ⟨Text.not_mem_of_mem_parts (by rw [hparts]; simp),
      Text.not_mem_of_mem_parts (by rw [hparts]; simp)⟩
  have htext : p.whole.toList = p.shape.toList ++ '.' :: p.property.toList := by simp [whole]
  rw [htext, Text.parts_append, Text.parts_of_not_mem hdots.1, Text.parts_of_not_mem hdots.2]
  rfl

theorem read_whole (h : Path.read path = .ok p) :
    Path.read p.whole = .ok ⟨p.shape, p.property, none⟩ :=
  read_eq_ok_iff.mpr (.inl ⟨rfl, parts_whole h⟩)

/-- A number below a property is the place of a component. -/
theorem read_componentPath (h : Path.read path = .ok p) (hwhole : p.component = none) {i : Nat}
    (hi : i < 10 ^ Text.digitLimit) :
    Path.read (componentPath path i) = .ok ⟨p.shape, p.property, some i⟩ := by
  refine read_eq_ok_iff.mpr (.inr ⟨_, i, rfl, ?_, Nat.toDigits_ne_nil, ?_, Text.readNatural?_toDigits hi⟩)
  · rcases read_eq_ok_iff.mp h with ⟨_, hparts⟩ | ⟨_, _, hcomponent, _⟩
    · rw [parts_componentPath, hparts]
      rfl
    · rw [hwhole] at hcomponent
      cases hcomponent
  · exact List.all_eq_true.mpr fun c hc => Text.isDigit_of_isDigit (Text.isDigit_toDigits i c hc)

/-- The number of a component that is read is not too long to be written. -/
theorem component_lt (h : Path.read path = .ok p) {i : Nat} (hcomponent : p.component = some i) :
    i < 10 ^ Text.digitLimit := by
  rcases read_eq_ok_iff.mp h with ⟨hwhole, _⟩ | ⟨_, j, hj, _, _, _, hread⟩
  · cases hwhole.symm.trans hcomponent
  · cases hj.symm.trans hcomponent
    exact Text.readNatural?_lt hread

/-- The plain path of a place names it. -/
theorem read_text (h : Path.read path = .ok p) : Path.read p.text = .ok p := by
  obtain ⟨shape, property, component⟩ := p
  cases component with
  | none => exact read_whole h
  | some i => exact read_componentPath (read_whole h) rfl (component_lt h rfl)

/-- A path without a component is plain. -/
theorem eq_whole (h : Path.read path = .ok p) (hwhole : p.component = none) : path = p.whole := by
  rcases read_eq_ok_iff.mp h with ⟨_, hparts⟩ | ⟨_, _, hcomponent, _⟩
  · apply String.toList_injective
    rw [← Text.join_parts '.' path.toList, ← Text.join_parts '.' p.whole.toList, hparts, parts_whole h]
  · cases hwhole.symm.trans hcomponent

theorem plain_text (h : Path.read path = .ok p) : Plain p.text := by
  intro q hq
  cases hq.symm.trans (read_text h)
  rfl

/-- So is the path of a component, below the path of its property. -/
theorem plain_componentPath (h : Path.read path = .ok p) (hwhole : p.component = none) {i : Nat}
    (hi : i < 10 ^ Text.digitLimit) : Plain (componentPath path i) := by
  have hplain := plain_text (read_componentPath h hwhole hi)
  rw [eq_whole h hwhole]
  simpa only [text, whole] using hplain

theorem plain_of_whole (h : Path.read path = .ok p) (hwhole : p.component = none) : Plain path := by
  intro q hq
  cases hq.symm.trans h
  rw [eq_whole h hwhole, text, hwhole]

/-- A place has one plain path. -/
theorem Plain.eq (h : Plain path) (h' : Plain path') (hread : Path.read path = .ok p)
    (hread' : Path.read path' = .ok p) : path = path' :=
  (h p hread).trans (h' p hread').symm

end Shapes.Path

end DiagramLayout
