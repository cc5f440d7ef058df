import DiagramLayout.Scalar.Double
import DiagramLayout.Term.Basic
import Mathlib.Data.List.Basic

/-!
# Terms as they are printed

The text of a term shows its name and its arguments: the structure of lists, the position of
variables, and numbers as far as they are printed. Nothing else gets lost, whatever the name is,
because the text of a number has none of the marks that the other texts are made of.

* `Text.IsPlain`: the texts of numbers; `Text.isPlain_render` for doubles;
* `Value.IsArgument`: numbers, variables and lists of them; `Value.imprint`: what is left of the
  numbers in print;
* `Value.toText_append_inj`: an argument is read off the beginning of a text;
* `Term.text_eq_iff`: the terms with one text.
-/

namespace DiagramLayout

/-! ## Plain texts -/

namespace Text

/-- The marks around arguments, lists and variables. -/
def marks : List Char := [',', '(', '[', ']', 'x']

/-- None of the marks occurs. -/
def Plain (s : List Char) : Prop := ∀ c ∈ s, c ∉ marks

instance (s : List Char) : Decidable (Plain s) := List.decidableBAll (· ∉ marks) s

/-- A text that is plain and not empty, as the texts of numbers are. -/
structure IsPlain (s : String) : Prop where
  ne_nil : s.toList ≠ []
  plain : Plain s.toList

/-- What follows a plain text begins with a mark, if there is anything. -/
def Stops (rest : List Char) : Prop := ∀ c ∈ rest.head?, c ∈ marks

variable {s s' rest rest' : List Char}

theorem Plain.append (hs : Plain s) (hs' : Plain s') : Plain (s ++ s') :=
  List.forall_mem_append.mpr ⟨hs, hs'⟩

theorem stops_cons {c : Char} (h : c ∈ marks) (rest : List Char) : Stops (c :: rest) := by
  simpa [Stops] using h

/-- A plain text ends where a mark begins. -/
theorem Plain.append_inj (hs : Plain s) (hs' : Plain s') (stops : Stops rest)
    (stops' : Stops rest') (h : s ++ rest = s' ++ rest') : s = s' ∧ rest = rest' := by
  induction s generalizing s' with
  | nil =>
    cases s' with
    | nil => exact ⟨rfl, h⟩
    | cons c s' =>
      obtain rfl : rest = c :: (s' ++ rest') := h
      exact absurd (stops c rfl) (hs' c List.mem_cons_self)
  | cons c s ih =>
    cases s' with
    | nil =>
      obtain rfl : c :: (s ++ rest) = rest' := h
      exact absurd (stops' c rfl) (hs c List.mem_cons_self)
    | cons c' s' =>
      rw [List.cons_append, List.cons_append] at h
      obtain ⟨rfl, htail⟩ := List.cons.inj h
      obtain ⟨rfl, hrest⟩ := ih (fun d hd => hs d (List.mem_cons_of_mem _ hd))
        (fun d hd => hs' d (List.mem_cons_of_mem _ hd)) htail
      exact ⟨rfl, hrest⟩

/-- A plain text that is not empty begins with no mark. -/
theorem IsPlain.append_ne {t : String} (h : IsPlain t) {c : Char} (hc : c ∈ marks)
    (rest rest' : List Char) : t.toList ++ rest ≠ c :: rest' := by
  obtain ⟨hne, hplain⟩ := h
  cases hlist : t.toList with
  | nil => exact absurd hlist hne
  | cons d s =>
    intro heq
    obtain ⟨rfl, -⟩ := List.cons.inj heq
    exact hplain d (by simp [hlist]) hc

/-- A list is split at its last mark in one way. -/
theorem append_cons_inj {c : Char} {before before' after after' : List Char} (ha : c ∉ after)
    (ha' : c ∉ after') (h : before ++ c :: after = before' ++ c :: after') :
    before = before' ∧ after = after' := by
  rcases List.append_eq_append_iff.mp h with ⟨between, rfl, hsplit⟩ | ⟨between, rfl, hsplit⟩
  · cases between with
    | nil => exact ⟨(List.append_nil _).symm, (List.cons.inj hsplit).2⟩
    | cons d between =>
      obtain ⟨-, rfl⟩ := List.cons.inj hsplit
      simp at ha
  · cases between with
    | nil => exact ⟨List.append_nil _, (List.cons.inj hsplit).2.symm⟩
    | cons d between =>
      obtain ⟨-, rfl⟩ := List.cons.inj hsplit
      simp at ha'

/-! ## Texts of numbers -/

theorem plain_toDigits (n : Nat) : Plain (Nat.toDigits 10 n) := by
  intro c hc hmark
  have hdigit := Nat.isDigit_of_mem_toDigits (by decide) (by decide) hc
  simp only [marks, List.mem_cons, List.not_mem_nil, or_false] at hmark
  rcases hmark with rfl | rfl | rfl | rfl | rfl <;> simp at hdigit

theorem plain_replicate (n : Nat) : Plain (List.replicate n '0') := by
  intro c hc
  rw [List.eq_of_mem_replicate hc]
  decide

/-- The digits of an integer, with its sign in front. -/
theorem toList_toString (n : Int) : (toString n).toList =
    (if n < 0 then ['-'] else []) ++ Nat.toDigits 10 n.natAbs := by
  rw [Int.toString_eq_repr]
  cases n with
  | ofNat n =>
    have hsign : ¬ Int.ofNat n < 0 := by simp
    rw [if_neg hsign]
    exact Nat.toList_repr
  | negSucc n =>
    rw [if_pos (Int.negSucc_lt_zero n)]
    simp [Int.repr, Nat.toList_repr]

theorem isPlain_toString (n : Int) : IsPlain (toString n) where
  ne_nil := by
    rw [toList_toString]
    exact List.append_ne_nil_of_right_ne_nil _ Nat.toDigits_ne_nil
  plain := by
    rw [toList_toString]
    exact .append (by split <;> decide) (plain_toDigits _)

theorem toString_inj {m n : Int} (h : (toString m).toList = (toString n).toList) : m = n := by
  have hdash : ∀ k : Nat, ∀ ds, Nat.toDigits 10 k ≠ '-' :: ds := by
    intro k ds hk
    have hdigit := Nat.isDigit_of_mem_toDigits (b := 10) (n := k) (c := '-') (by decide) (by decide)
      (by simp [hk])
    simp at hdigit
  have habs (hd : Nat.toDigits 10 m.natAbs = Nat.toDigits 10 n.natAbs) : m.natAbs = n.natAbs := by
    simpa using congrArg (fun ds => Nat.ofDigitChars 10 ds 0) hd
  rw [toList_toString, toList_toString] at h
  by_cases hm : m < 0 <;> by_cases hn : n < 0 <;> simp only [hm, hn, ↓reduceIte, List.nil_append,
    List.cons_append, List.cons.injEq, true_and] at h
  · have := habs h
    omega
  · exact absurd h.symm (hdash _ _)
  · exact absurd h (hdash _ _)
  · have := habs h
    omega

open Decimal

theorem isPlain_exponentText (places : Nat) (e : Int) : IsPlain (exponentText places e) where
  ne_nil := by
    rw [exponentText, String.toList_append]
    exact List.append_ne_nil_of_left_ne_nil (by split <;> decide) _
  plain := by
    rw [exponentText, String.toList_append, String.toList_ofList]
    exact .append (by split <;> decide) (.append (plain_replicate _) (plain_toDigits _))

theorem IsPlain.cons {c : Char} {s : List Char} (hc : c ∉ marks) (hs : Plain s) :
    IsPlain (String.ofList (c :: s)) where
  ne_nil := by simp
  plain := by
    rw [String.toList_ofList]
    exact List.forall_mem_cons.mpr ⟨hc, hs⟩

theorem IsPlain.append {s t : String} (hs : IsPlain s) (ht : Plain t.toList) : IsPlain (s ++ t) where
  ne_nil := by
    rw [String.toList_append]
    exact List.append_ne_nil_of_left_ne_nil hs.ne_nil _
  plain := by
    rw [String.toList_append]
    exact hs.plain.append ht

/-- Digits stay plain, wherever the point and the exponent are. -/
theorem isPlain_layout (f : Format) {digits : List Char} (hdigits : Plain digits) (lead : Int) :
    IsPlain (f.layout digits lead) := by
  unfold Format.layout
  split
  · split
    · refine .append ⟨by decide, by decide⟩ ?_
      rw [String.toList_ofList]
      exact (plain_replicate _).append hdigits
    · have htake : Plain (digits.take (lead.toNat + 1)) :=
        fun c hc => hdigits c (List.mem_of_mem_take hc)
      have hwhole : IsPlain (String.ofList (digits.take (lead.toNat + 1) ++
          List.replicate (lead.toNat + 1 - (digits.take (lead.toNat + 1)).length) '0')) := by
        constructor
        · rw [String.toList_ofList, ← List.length_pos_iff]
          simp only [List.length_append, List.length_replicate]
          omega
        · rw [String.toList_ofList]
          exact htake.append (plain_replicate _)
      dsimp only
      split
      · exact hwhole.append (by split <;> decide)
      · refine (hwhole.append (by decide)).append ?_
        rw [String.toList_ofList]
        exact fun c hc => hdigits c (List.mem_of_mem_drop hc)
  · split
    · exact isPlain_exponentText _ _
    · obtain ⟨hd, hfraction⟩ := List.forall_mem_cons.mp hdigits
      exact (IsPlain.cons hd hfraction).append (isPlain_exponentText _ _).plain
    · obtain ⟨hd, hfraction⟩ := List.forall_mem_cons.mp hdigits
      exact (IsPlain.cons hd (List.forall_mem_cons.mpr ⟨by decide, hfraction⟩)).append
        (isPlain_exponentText _ _).plain

/-- The texts of doubles in names are plain. -/
theorem isPlain_render (x : Float) : IsPlain (Format.general.render x) := by
  unfold Format.render
  split
  · split
    · exact ⟨by decide, by decide⟩
    · split <;> exact ⟨by decide, by decide⟩
  · next b _ =>
    have hlayout := isPlain_layout Format.general (plain_toDigits (Digits.rounded 6 b).digits)
    dsimp only [Format.general]
    split
    · exact .append ⟨by decide, by decide⟩ (hlayout _).plain
    · rw [String.empty_append]
      exact hlayout _

end Text

/-! ## Arguments -/

variable {α : Type}

namespace Value

mutual

/-- Numbers, variables and lists of arguments. -/
inductive IsArgument : Value α → Prop where
  | number (x : α) : IsArgument (.number x)
  | integer (n : Int) : IsArgument (.integer n)
  | varying (i : Int) : IsArgument (.varying i)
  | list {vs : List (Value α)} : AreArguments vs → IsArgument (.list vs)

/-- Several arguments. -/
inductive AreArguments : List (Value α) → Prop where
  | nil : AreArguments []
  | cons {v : Value α} {vs : List (Value α)} : IsArgument v → AreArguments vs →
      AreArguments (v :: vs)

end

variable [Scalar α]

mutual

/-- What is left of an argument in print: its numbers are texts. -/
def imprint : Value α → Value String
  | .number x => .number (Scalar.text x)
  | .integer n => .number (toString n)
  | .text s => .text s
  | .truth b => .truth b
  | .absent => .absent
  | .list vs => .list (imprintAll vs)
  | .varying i => .varying i
  | .handle h => .handle h

/-- What is left of several arguments. -/
def imprintAll : List (Value α) → List (Value String)
  | [] => []
  | v :: vs => imprint v :: imprintAll vs

end

/-- Values as they stand in a list. -/
def listed (vs : List (Value α)) : List Char := (", ".intercalate (toTexts vs)).toList

/-- Values as they stand in a list behind another value. -/
def following : List (Value α) → List Char
  | [] => []
  | v :: vs => ',' :: ' ' :: ((toText v).toList ++ following vs)

variable {v w : Value α} {vs ws : List (Value α)} {rest rest' : List Char}

theorem following_cons (v : Value α) (vs : List (Value α)) :
    following (v :: vs) = ',' :: ' ' :: listed (v :: vs) := by
  induction vs generalizing v with
  | nil => simp [listed, toTexts, following]
  | cons w vs ih =>
    have hrest := ih w
    rw [following, hrest]
    simp only [listed, toTexts]
    rw [String.intercalate_cons_cons, String.toList_append, String.toList_append]
    simp

theorem listed_cons (v : Value α) (vs : List (Value α)) :
    listed (v :: vs) = (toText v).toList ++ following vs := by
  have h := following_cons v vs
  rw [following] at h
  simpa using h.symm

theorem listed_subset_following (vs : List (Value α)) : listed vs ⊆ following vs := by
  cases vs with
  | nil => simp [listed, toTexts]
  | cons v vs =>
    rw [following_cons]
    exact fun c hc => List.mem_cons_of_mem _ (List.mem_cons_of_mem _ hc)

theorem toList_toText_list (vs : List (Value α)) :
    (toText (.list vs)).toList = '[' :: (listed vs ++ [']']) := by
  simp [toText, listed]

theorem toList_toText_varying (i : Int) :
    (toText (.varying i : Value α)).toList = 'x' :: '[' :: ((toString i).toList ++ [']']) := by
  simp [toText]

/-- A number is printed plainly, and the others begin with a mark. -/
inductive Shape : Value α → Prop where
  | plain {v : Value α} : imprint v = .number (toText v) → Text.IsPlain (toText v) → Shape v
  | varying (i : Int) : Shape (.varying i)
  | list (vs : List (Value α)) : Shape (.list vs)

/-- No argument begins as a list ends. -/
theorem Shape.append_ne_close (hw : Shape w) (rest rest' : List Char) :
    (toText w).toList ++ rest ≠ ']' :: rest' := by
  cases hw with
  | plain _ hplain => exact hplain.append_ne (by decide) _ _
  | varying i => simp [toList_toText_varying]
  | list vs => simp [toList_toText_list]

theorem Shape.number_append_inj (hv : imprint v = .number (toText v))
    (hplain : Text.IsPlain (toText v)) (hw : Shape w) (stops : Text.Stops rest)
    (stops' : Text.Stops rest') (h : (toText v).toList ++ rest = (toText w).toList ++ rest') :
    imprint v = imprint w ∧ rest = rest' := by
  cases hw with
  | plain hw hplain' =>
    obtain ⟨htext, hrest⟩ := hplain.plain.append_inj hplain'.plain stops stops' h
    exact ⟨by rw [hv, hw, String.toList_injective htext], hrest⟩
  | varying i =>
    rw [toList_toText_varying] at h
    exact absurd h (hplain.append_ne (by decide) _ _)
  | list ws =>
    rw [toList_toText_list] at h
    exact absurd h (hplain.append_ne (by decide) _ _)

theorem Shape.varying_append_inj {i : Int} (hw : Shape w)
    (h : (toText (.varying i : Value α)).toList ++ rest = (toText w).toList ++ rest') :
    imprint (.varying i : Value α) = imprint w ∧ rest = rest' := by
  rw [toList_toText_varying] at h
  cases hw with
  | plain _ hplain => exact absurd h.symm (hplain.append_ne (by decide) _ _)
  | varying j =>
    rw [toList_toText_varying] at h
    simp only [List.cons_append, List.append_assoc, List.nil_append, List.cons.injEq, true_and] at h
    obtain ⟨hindex, hrest⟩ := (Text.isPlain_toString i).plain.append_inj
      (Text.isPlain_toString j).plain (Text.stops_cons (by decide) _)
      (Text.stops_cons (by decide) _) h
    rw [Text.toString_inj hindex]
    exact ⟨rfl, (List.cons.inj hrest).2⟩
  | list ws =>
    rw [toList_toText_list] at h
    simp at h

theorem Shape.list_append_inj (hw : Shape w)
    (h : (toText (.list vs)).toList ++ rest = (toText w).toList ++ rest') :
    ∃ ws, w = .list ws ∧ listed vs ++ ']' :: rest = listed ws ++ ']' :: rest' := by
  rw [toList_toText_list] at h
  cases hw with
  | plain _ hplain => exact absurd h.symm (hplain.append_ne (by decide) _ _)
  | varying i =>
    rw [toList_toText_varying] at h
    simp at h
  | list ws =>
    rw [toList_toText_list] at h
    exact ⟨ws, rfl, by simpa using h⟩

theorem stops_following (vs : List (Value α)) (rest : List Char) :
    Text.Stops (following vs ++ ']' :: rest) := by
  cases vs <;> exact Text.stops_cons (by decide) _

mutual

/-- Values that leave the same in print have one text. -/
theorem toText_eq_of_imprint :
    ∀ {v w : Value α}, imprint v = imprint w → toText v = toText w
  | .list vs, w, h => by
    cases w with
    | list ws => rw [toText, toText, toTexts_eq_of_imprint (Value.list.inj h)]
    | _ => cases h
  | .number _, w, h | .integer _, w, h | .varying _, w, h | .text _, w, h | .truth _, w, h
  | .absent, w, h | .handle _, w, h => by
    cases w <;> simp [imprint] at h <;> simp [toText, h]

theorem toTexts_eq_of_imprint :
    ∀ {vs ws : List (Value α)}, imprintAll vs = imprintAll ws → toTexts vs = toTexts ws
  | [], [], _ => rfl
  | v :: vs, w :: ws, h => by
    obtain ⟨hhead, htail⟩ := List.cons.inj h
    rw [toTexts, toTexts, toText_eq_of_imprint hhead, toTexts_eq_of_imprint htail]
  | [], w :: ws, h | v :: vs, [], h => by simp [imprintAll] at h

end

theorem IsArgument.shape (hplain : ∀ x : α, Text.IsPlain (Scalar.text x)) (hv : v.IsArgument) :
    Shape v := by
  cases hv with
  | number x => exact .plain rfl (hplain x)
  | integer n => exact .plain rfl (Text.isPlain_toString n)
  | varying i => exact .varying i
  | list _ => exact .list _

/-- Lists agree in front of their first value too. -/
theorem following_append_eq (hplain : ∀ x : α, Text.IsPlain (Scalar.text x))
    (hvs : AreArguments vs) (hws : AreArguments ws)
    (h : listed vs ++ ']' :: rest = listed ws ++ ']' :: rest') :
    following vs ++ ']' :: rest = following ws ++ ']' :: rest' := by
  cases hvs with
  | nil =>
    cases hws with
    | nil => exact h
    | cons hw _ =>
      rw [listed_cons, List.append_assoc] at h
      exact absurd h.symm ((hw.shape hplain).append_ne_close _ _)
  | cons hv _ =>
    cases hws with
    | nil =>
      rw [listed_cons, List.append_assoc] at h
      exact absurd h ((hv.shape hplain).append_ne_close _ _)
    | cons _ _ => simp only [following_cons, List.cons_append, h]

mutual

/-- An argument is read off the beginning of a text, up to what its numbers lose. -/
theorem toText_append_inj (hplain : ∀ x : α, Text.IsPlain (Scalar.text x)) :
    ∀ {v w : Value α} {rest rest' : List Char}, v.IsArgument → w.IsArgument → Text.Stops rest →
      Text.Stops rest' → (toText v).toList ++ rest = (toText w).toList ++ rest' →
        imprint v = imprint w ∧ rest = rest'
  | .number x, _, _, _, _, hw, stops, stops', h =>
    Shape.number_append_inj rfl (hplain x) (hw.shape hplain) stops stops' h
  | .integer n, _, _, _, _, hw, stops, stops', h =>
    Shape.number_append_inj rfl (Text.isPlain_toString n) (hw.shape hplain) stops stops' h
  | .varying _, _, _, _, _, hw, _, _, h => (hw.shape hplain).varying_append_inj h
  | .list vs, _, _, _, .list hvs, hw, _, _, h => by
    obtain ⟨ws, rfl, hlisted⟩ := (hw.shape hplain).list_append_inj h
    cases hw with
    | list hws =>
      obtain ⟨hall, hrest⟩ := following_append_inj hplain hvs hws
        (following_append_eq hplain hvs hws hlisted)
      exact ⟨by rw [imprint, imprint, hall], hrest⟩

/-- The rest of a list is read off the beginning of a text. -/
theorem following_append_inj (hplain : ∀ x : α, Text.IsPlain (Scalar.text x)) :
    ∀ {vs ws : List (Value α)} {rest rest' : List Char}, AreArguments vs → AreArguments ws →
      following vs ++ ']' :: rest = following ws ++ ']' :: rest' →
        imprintAll vs = imprintAll ws ∧ rest = rest'
  | [], [], _, _, _, _, h => ⟨rfl, (List.cons.inj h).2⟩
  | [], w :: ws, _, _, _, _, h => by simp [following] at h
  | v :: vs, [], _, _, _, _, h => by simp [following] at h
  | v :: vs, w :: ws, _, _, .cons hv hvs, .cons hw hws, h => by
    simp only [following, List.cons_append, List.append_assoc, List.cons.injEq, true_and] at h
    obtain ⟨hhead, h⟩ := toText_append_inj hplain hv hw (stops_following _ _)
      (stops_following _ _) h
    obtain ⟨htail, hrest⟩ := following_append_inj hplain hvs hws h
    exact ⟨by rw [imprintAll, imprintAll, hhead, htail], hrest⟩

end

mutual

theorem not_mem_toText (hplain : ∀ x : α, Text.IsPlain (Scalar.text x)) :
    ∀ {v : Value α}, v.IsArgument → '(' ∉ (toText v).toList
  | .number x, _, hmem => (hplain x).plain _ hmem (by decide)
  | .integer n, _, hmem => (Text.isPlain_toString n).plain _ hmem (by decide)
  | .varying i, _, hmem => by
    rw [toList_toText_varying] at hmem
    have hindex : '(' ∈ (toString i).toList := by simpa using hmem
    exact (Text.isPlain_toString i).plain _ hindex (by decide)
  | .list vs, .list hvs, hmem => by
    rw [toList_toText_list] at hmem
    have hlisted : '(' ∈ listed vs := by simpa using hmem
    exact not_mem_following hplain hvs (listed_subset_following vs hlisted)

theorem not_mem_following (hplain : ∀ x : α, Text.IsPlain (Scalar.text x)) :
    ∀ {vs : List (Value α)}, AreArguments vs → '(' ∉ following vs
  | [], _ => by simp [following]
  | v :: vs, .cons hv hvs => by
    have hhead := not_mem_toText hplain hv
    have htail := not_mem_following hplain hvs
    simp [following, hhead, htail]

end

end Value

/-! ## Terms -/

namespace Term

variable [Scalar α]

/-- What is left of a term in print. -/
def imprint (t : Term α) : String × List (Value String) := (t.name, Value.imprintAll t.arguments)

theorem toList_text (t : Term α) :
    t.text.toList = t.name.toList ++ '(' :: (Value.listed t.arguments ++ [')']) := by
  simp [text, Value.listed]

/-- Terms have one text if they differ in nothing but what numbers lose in print. -/
theorem text_eq_iff (hplain : ∀ x : α, Text.IsPlain (Scalar.text x)) {t u : Term α}
    (ht : Value.AreArguments t.arguments) (hu : Value.AreArguments u.arguments) :
    t.text = u.text ↔ t.imprint = u.imprint := by
  have hopen {vs : List (Value α)} (hvs : Value.AreArguments vs) :
      '(' ∉ Value.listed vs ++ [')'] := by
    have hlisted : '(' ∉ Value.listed vs := fun hmem =>
      Value.not_mem_following hplain hvs (Value.listed_subset_following vs hmem)
    simp [hlisted]
  constructor
  · intro h
    have hlists := congrArg String.toList h
    rw [toList_text, toList_text] at hlists
    obtain ⟨hname, hlisted⟩ := Text.append_cons_inj (hopen ht) (hopen hu) hlists
    have hlisted := List.append_cancel_right hlisted
    have hfollowing := Value.following_append_eq hplain ht hu
      (congrArg (· ++ [']']) hlisted)
    obtain ⟨hall, -⟩ := Value.following_append_inj hplain ht hu hfollowing
    exact Prod.ext (String.toList_injective hname) hall
  · intro h
    obtain ⟨hname, hall⟩ := Prod.mk.inj h
    rw [text, text, hname, Value.toTexts_eq_of_imprint hall]

end Term

end DiagramLayout
