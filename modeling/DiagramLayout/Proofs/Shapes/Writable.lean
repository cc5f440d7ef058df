import DiagramLayout.Proofs.Shapes.Declared

/-!
# Declared paths that cannot be written

A path can be declared if something that is no list is read there, but a component can be written in a
list only. Of the values of a store, texts have components and are no lists; a tuple or an array would
be a case like theirs. Numbers for the variables are written in the order of the declarations up to the
first path of a character.
-/

namespace DiagramLayout.Shapes.Store

variable {α : Type} {shapes : List (String × List (String × Value α))} {s s' t : Store α}
  {path : String} {p : Path} {names before after : List String}

/-- Steps that succeed are followed by those after them. -/
theorem each_append {β : Type} {step : Store α → β → Except Fault (Store α)} {bs : List β}
    (h : s.each step bs = (.ok (), s')) (cs : List β) : s.each step (bs ++ cs) = s'.each step cs := by
  induction bs generalizing s with
  | nil =>
    cases h
    rfl
  | cons b bs ih =>
    rw [each] at h
    rw [List.cons_append, each]
    cases hstep : step s b with
    | ok t =>
      rw [hstep] at h
      exact ih h
    | error cause =>
      rw [hstep] at h
      cases h

/-- A path of a character of a text. -/
def IsCharacter (s : Store α) (path : String) : Prop :=
  ∃ p i text, Path.read path = .ok p ∧ p.component = some i ∧ s.property? p = some (.text text)

/-- No declared path is that of a character. -/
def Writable (s : Store α) : Prop := ∀ path ∈ s.varying, ¬s.IsCharacter path

/-- The first declared path of a character, and the paths that were declared before it. -/
structure Blocked (s : Store α) (before : List String) (path : String) : Prop where
  split : ∃ after, s.varying = before ++ path :: after
  writable : ∀ path' ∈ before, ¬s.IsCharacter path'
  character : s.IsCharacter path

theorem writable_or_blocked (s : Store α) : s.Writable ∨ ∃ before path, s.Blocked before path := by
  classical
  cases hfirst : s.varying.find? (s.IsCharacter ·) with
  | none =>
    have hnone := List.find?_eq_none.mp hfirst
    exact .inl fun path hpath => by simpa using hnone path hpath
  | some path =>
    obtain ⟨hcharacter, before, after, hsplit, hbefore⟩ := List.find?_eq_some_iff_append.mp hfirst
    exact .inr ⟨before, path, ⟨after, hsplit⟩, by simpa using hbefore, by simpa using hcharacter⟩

namespace Declared

/-- A number can be written at a declared path, unless that is the path of a character. -/
theorem set_alike (h : Declared shapes s) (hpath : path ∈ s.varying) (halike : s.Alike t) (x : α) :
    (¬s.IsCharacter path ∧ ∃ t', t.set path x = .ok t' ∧ s.Alike t') ∨
      (s.IsCharacter path ∧ t.set path x = .error (.unknownPath path)) := by
  obtain ⟨v, hv, _⟩ := h.varies.readable path hpath
  obtain ⟨p, w, hread, hw, ⟨hwhole, _⟩ | ⟨i, hcomponent, hitem⟩⟩ := get_eq_ok_iff.mp hv
  · have hroom : t.room? p = none := (halike p).symm.trans (h.room?_whole hpath hread hwhole)
    have hput : t.Alike (t.put p (.number x)) := alike_put hroom.symm
    refine .inl ⟨?_, _, set_property hread hwhole, fun q => (halike q).trans (hput q)⟩
    rintro ⟨q, i, _, hread', hcomponent, _⟩
    cases hread.symm.trans hread'
    cases hwhole.symm.trans hcomponent
  · obtain ⟨vs, hitems, hi⟩ := Value.item_eq_ok_iff.mp hitem
    have hi := (List.getElem?_eq_some_iff.mp hi).1
    cases w with
    | list =>
      cases hitems
      obtain ⟨ws, hws, hlength⟩ := room?_eq_some
        ((halike p).symm.trans (room?_of_property hw : s.room? p = some vs.length))
      have hput : t.Alike (t.put p (.list (ws.set i (.number x)))) :=
        alike_put (by rw [room?_of_property hws]; simp [Value.length?])
      refine .inl ⟨?_, _, (set_component hread hcomponent hws).trans (if_pos (hlength ▸ hi)),
        fun q => (halike q).trans (hput q)⟩
      rintro ⟨q, _, _, hread', _, htext⟩
      cases hread.symm.trans hread'
      cases hw.symm.trans htext
    | text text =>
      have hroom : t.room? p = none := (halike p).symm.trans (room?_of_property hw)
      exact .inr ⟨⟨p, i, text, hread, hcomponent, hw⟩, set_no_list hread hcomponent hroom⟩
    | _ => cases hitems

/-- Numbers are written at declared paths that are no paths of characters. -/
theorem insert_written (h : Declared shapes s) (halike : s.Alike t)
    (hnames : ∀ path ∈ names, path ∈ s.varying ∧ ¬s.IsCharacter path) (xs : List α) :
    ∃ t', t.insert (names.zip xs) = (.ok (), t') ∧ s.Alike t' := by
  unfold insert
  induction names generalizing t xs with
  | nil => exact ⟨t, rfl, halike⟩
  | cons path names ih =>
    obtain ⟨⟨hpath, hwritable⟩, hnames⟩ := List.forall_mem_cons.mp hnames
    cases xs with
    | nil => exact ⟨t, rfl, halike⟩
    | cons x xs =>
      rcases h.set_alike hpath halike x with ⟨_, t', hset, halike'⟩ | ⟨hcharacter, _⟩
      · simp only [List.zip_cons_cons, each, hset]
        exact ih halike' hnames xs
      · exact absurd hcharacter hwritable

/-- Without a path of a character numbers are written at all declared paths. -/
theorem insert_writable (h : Declared shapes s) (hwritable : s.Writable) (halike : s.Alike t)
    (xs : List α) : ∃ t', t.insert (s.varying.zip xs) = (.ok (), t') := by
  obtain ⟨t', hwritten, _⟩ :=
    h.insert_written halike (fun path hpath => ⟨hpath, hwritable path hpath⟩) xs
  exact ⟨t', hwritten⟩

/-- At the first path of a character writing stops. The paths before it have been written. -/
theorem insert_blocked (h : Declared shapes s) (hblocked : s.Blocked before path)
    (halike : s.Alike t) {xs : List α} (hlength : xs.length = s.varying.length) :
    ∃ t', t.insert (before.zip xs) = (.ok (), t') ∧
      t.insert (s.varying.zip xs) = (.error (.unknownPath path), t') := by
  obtain ⟨⟨after, hsplit⟩, hbefore, hcharacter⟩ := hblocked
  have hmem (path' : String) (hpath' : path' ∈ before) : path' ∈ s.varying := by simp [hsplit, hpath']
  obtain ⟨t', hwritten, halike'⟩ := h.insert_written halike
    (fun path' hpath' => ⟨hmem path' hpath', hbefore path' hpath'⟩) xs
  refine ⟨t', hwritten, ?_⟩
  -- The numbers are divided where the paths are.
  obtain ⟨ys, x, zs, rfl, hys⟩ : ∃ ys x zs, xs = ys ++ x :: zs ∧ before.length = ys.length := by
    have hlt : before.length < xs.length := by
      rw [hlength, hsplit]
      simp
    refine ⟨xs.take before.length, xs[before.length], xs.drop (before.length + 1), ?_, by simp; omega⟩
    rw [← List.drop_eq_getElem_cons hlt, List.take_append_drop]
  have hfirst : before.zip (ys ++ x :: zs) = before.zip ys := by
    simpa using @List.zip_append _ _ before [] ys (x :: zs) hys
  have hall : (before ++ path :: after).zip (ys ++ x :: zs) =
      before.zip ys ++ (path, x) :: after.zip zs := by
    rw [List.zip_append hys, List.zip_cons_cons]
  rcases h.set_alike (by simp [hsplit] : path ∈ s.varying) halike' x with ⟨hwritable, _⟩ | ⟨_, hset⟩
  · exact absurd hcharacter hwritable
  · rw [hfirst] at hwritten
    rw [hsplit, hall, insert, each_append hwritten, each]
    simp only [hset]

end Declared

end DiagramLayout.Shapes.Store
