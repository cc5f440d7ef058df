import DiagramLayout.Proofs.Keyed
import DiagramLayout.Proofs.Outcome
import DiagramLayout.Shapes.Store

/-!
# Writing to a store of shapes

Whether numbers can be written at paths depends on the lists whose components the paths name, and on
their lengths. A list is lost when a number is written in its place, so what was written once can be
written over unless a path names a list and another path a component of that list (`Store.Apart`).
-/

namespace DiagramLayout

/-! ## Lists in a store -/

/-- The number of elements of a list. -/
def Value.length? {α : Type} : Value α → Option Nat
  | .list vs => some vs.length
  | _ => none

namespace Shapes.Store

variable {α : Type} {s t s' : Store α} {p : Path} {path : String} {x : α}

/-- The number of elements of the list that a property holds. -/
def room? (s : Store α) (p : Path) : Option Nat := (s.property? p).bind Value.length?

/-- Stores that hold lists of the same lengths in the same places. -/
def Alike (s t : Store α) : Prop := ∀ p, s.room? p = t.room? p

/-- Stores that do so in certain places. -/
def AlikeOn (places : Path → Prop) (s t : Store α) : Prop := ∀ p, places p → s.room? p = t.room? p

/-- The paths of components all name certain places. -/
def Within (places : Path → Prop) (paths : List String) : Prop :=
  ∀ path ∈ paths, ∀ p, Path.read path = .ok p → p.component ≠ none → places p

/-- Beside a path that names a whole list there is none of a component of that list. -/
def Apart (s : Store α) (paths : List String) : Prop :=
  ∀ path ∈ paths, ∀ p vs, Path.read path = .ok p → p.component = none → s.get path = .ok (.list vs) →
    ∀ path' ∈ paths, ∀ p', Path.read path' = .ok p' →
      p'.shape = p.shape ∧ p'.property = p.property → p'.component = none

theorem property?_put (s : Store α) (p q : Path) (v : Value α) :
    (s.put p v).property? q =
      if q.shape = p.shape ∧ q.property = p.property then some v else s.property? q := by
  unfold property? put
  by_cases hshape : q.shape = p.shape
  · rw [hshape, Keyed.lookup_put_self]
    by_cases hproperty : q.property = p.property
    · rw [Option.bind_some, hproperty, Keyed.lookup_put_self, if_pos ⟨rfl, rfl⟩]
    · rw [Option.bind_some, Keyed.lookup_put_of_ne hproperty, if_neg fun h => hproperty h.2]
      cases s.shapes.lookup p.shape <;> rfl
  · rw [Keyed.lookup_put_of_ne hshape, if_neg fun h => hshape h.1]

theorem room?_put (s : Store α) (p q : Path) (v : Value α) :
    (s.put p v).room? q =
      if q.shape = p.shape ∧ q.property = p.property then v.length? else s.room? q := by
  rw [room?, property?_put]
  split <;> rfl

theorem room?_of_property {v : Value α} (h : s.property? p = some v) : s.room? p = v.length? := by
  rw [room?, h]
  rfl

theorem room?_eq_some {n : Nat} (h : s.room? p = some n) :
    ∃ vs, s.property? p = some (.list vs) ∧ vs.length = n := by
  obtain ⟨v, hv, hlength⟩ := Option.bind_eq_some_iff.mp h
  cases v with
  | list vs => exact ⟨vs, hv, Option.some.inj hlength⟩
  | _ => cases hlength

theorem room?_congr {q : Path} (h : q.shape = p.shape ∧ q.property = p.property) :
    s.room? q = s.room? p := by
  rw [room?, room?, property?, property?, h.1, h.2]

theorem AlikeOn.put {places : Path → Prop} (h : s.AlikeOn places t) (p : Path) {v w : Value α}
    (hlength : v.length? = w.length?) : (s.put p v).AlikeOn places (t.put p w) := by
  intro q hq
  rw [room?_put, room?_put, hlength, h q hq]

/-- Putting a list of the same length, or no list where there was none, keeps the lists. -/
theorem alike_put {v : Value α} (h : v.length? = s.room? p) : s.Alike (s.put p v) := by
  intro q
  rw [room?_put]
  split
  · next hsame => rw [h, room?_congr hsame]
  · rfl

/-! ## Writings -/

theorem set_property (hread : Path.read path = .ok p) (hwhole : p.component = none) :
    s.set path x = .ok (s.put p (.number x)) := by
  simp [set, hread, hwhole, bind, Except.bind, pure, Except.pure]

theorem set_component {i : Nat} {vs : List (Value α)} (hread : Path.read path = .ok p)
    (hcomponent : p.component = some i) (hlist : s.property? p = some (.list vs)) :
    s.set path x =
      if i < vs.length then .ok (s.put p (.list (vs.set i (.number x))))
      else .error (.unknownPath path) := by
  simp [set, hread, hcomponent, hlist, bind, Except.bind, pure, Except.pure, throw, throwThe,
    MonadExceptOf.throw]

theorem set_no_list {i : Nat} (hread : Path.read path = .ok p) (hcomponent : p.component = some i)
    (hnone : s.room? p = none) : s.set path x = .error (.unknownPath path) := by
  simp only [set, hread, hcomponent, bind, Except.bind]
  split
  · next vs hlist => simp [room?, hlist, Value.length?] at hnone
  · rfl

/-- A number can be written at a path in both of two like stores, or in neither. -/
theorem AlikeOn.set {places : Path → Prop} (h : s.AlikeOn places t)
    (hplaces : ∀ p, Path.read path = .ok p → p.component ≠ none → places p) (x y : α) :
    (∃ s' t', s.set path x = .ok s' ∧ t.set path y = .ok t' ∧ s'.AlikeOn places t') ∨
      ∃ cause, s.set path x = .error cause ∧ t.set path y = .error cause := by
  cases hread : Path.read path with
  | error cause => exact .inr ⟨cause, by simp [Store.set, hread, bind, Except.bind]⟩
  | ok p =>
    cases hcomponent : p.component with
    | none =>
      exact .inl ⟨_, _, set_property hread hcomponent, set_property hread hcomponent, h.put p rfl⟩
    | some i =>
      have hsame := h p (hplaces p hread (by simp [hcomponent]))
      cases hroom : s.room? p with
      | none =>
        have hroom' := hsame.symm.trans hroom
        exact .inr ⟨_, set_no_list hread hcomponent hroom, set_no_list hread hcomponent hroom'⟩
      | some n =>
        obtain ⟨vs, hvs, rfl⟩ := room?_eq_some hroom
        obtain ⟨ws, hws, hlength⟩ := room?_eq_some (hsame.symm.trans hroom)
        rw [set_component hread hcomponent hvs, set_component hread hcomponent hws, hlength]
        by_cases hi : i < vs.length
        · simp only [hi, ↓reduceIte]
          exact .inl ⟨_, _, rfl, rfl, h.put p (by simp [Value.length?, hlength])⟩
        · simp only [hi, ↓reduceIte]
          exact .inr ⟨_, rfl, rfl⟩

/-- Stores that are alike where components are written take the same writings. -/
theorem insert_alike {places : Path → Prop} {xs ys : List (String × α)} (h : s.AlikeOn places t)
    (hplaces : Within places (xs.map Prod.fst)) (hkeys : xs.map Prod.fst = ys.map Prod.fst) :
    (s.insert xs).1 = (t.insert ys).1 := by
  unfold insert
  induction xs generalizing s t ys with
  | nil =>
    obtain rfl := List.map_eq_nil_iff.mp hkeys.symm
    rfl
  | cons head rest ih =>
    cases ys with
    | nil => cases hkeys
    | cons head' rest' =>
      obtain ⟨path, x⟩ := head
      obtain ⟨path', y⟩ := head'
      obtain ⟨rfl, hrest⟩ := List.cons.inj hkeys
      obtain ⟨hhead, hplaces⟩ := List.forall_mem_cons.mp hplaces
      rcases h.set hhead x y with ⟨s', t', hs, ht, halike⟩ | ⟨cause, hs, ht⟩
      · simp only [each, hs, ht]
        exact ih halike hplaces hrest
      · simp only [each, hs, ht]

/-- Writing a number leaves the list at a place as it is, or it is written in the place of that list. -/
theorem room?_set (h : s.set path x = .ok s') (q : Path) : s'.room? q = s.room? q ∨
    s'.room? q = none ∧ ∃ p, Path.read path = .ok p ∧ p.component = none ∧
      q.shape = p.shape ∧ q.property = p.property := by
  obtain ⟨p, hread, -⟩ := bind_eq_ok_iff.mp h
  cases hcomponent : p.component with
  | none =>
    rw [set_property hread hcomponent] at h
    cases h
    rw [room?_put]
    split
    · next hsame => exact .inr ⟨rfl, p, hread, hcomponent, hsame⟩
    · exact .inl rfl
  | some i =>
    cases hroom : s.room? p with
    | none =>
      rw [set_no_list hread hcomponent hroom] at h
      cases h
    | some n =>
      obtain ⟨vs, hvs, rfl⟩ := room?_eq_some hroom
      rw [set_component hread hcomponent hvs] at h
      split at h
      · cases h
        exact .inl (alike_put (by simp [Value.length?, hroom]) q).symm
      · cases h

/-- Writing numbers leaves the list at a place as it is, or one of them is written in its place. -/
theorem room?_insert (s : Store α) (xs : List (String × α)) (q : Path) :
    (s.insert xs).2.room? q = s.room? q ∨ (s.insert xs).2.room? q = none ∧
      ∃ path ∈ xs.map Prod.fst, ∃ p, Path.read path = .ok p ∧ p.component = none ∧
        q.shape = p.shape ∧ q.property = p.property := by
  unfold insert
  induction xs generalizing s with
  | nil => exact .inl rfl
  | cons head rest ih =>
    obtain ⟨path, x⟩ := head
    cases hset : s.set path x with
    | error cause =>
      simp only [each, hset]
      exact .inl trivial
    | ok s' =>
      simp only [each, hset, List.map_cons, List.mem_cons, exists_eq_or_imp]
      rcases ih s' with hsame | ⟨hnone, hlater⟩
      · rw [hsame]
        exact (room?_set hset q).imp_right (And.imp_right .inl)
      · exact .inr ⟨hnone, .inr hlater⟩

/-- Writing at paths that name no list keeps the lists. -/
theorem insert_keeps {xs : List (String × α)} (hkept : ∀ path ∈ xs.map Prod.fst, ∀ p,
    Path.read path = .ok p → p.component = none → s.room? p = none) : s.Alike (s.insert xs).2 := by
  intro q
  rcases s.room?_insert xs q with hsame | ⟨hnone, path, hpath, p, hread, hwhole, hplace⟩
  · exact hsame.symm
  · rw [hnone, room?_congr hplace, hkept path hpath p hread hwhole]

theorem room?_of_get (hread : Path.read path = .ok p) (hwhole : p.component = none)
    (h : ∀ vs, s.get path ≠ .ok (.list vs)) : s.room? p = none := by
  by_contra hroom
  obtain ⟨n, hn⟩ := Option.ne_none_iff_exists'.mp hroom
  obtain ⟨vs, hvs, -⟩ := room?_eq_some hn
  exact h vs (by simp [get, hread, hvs, hwhole, bind, Except.bind, pure, Except.pure])

/-! ## Writing again -/

/-- Paths none of which names a whole list are apart. -/
theorem apart_of_no_list {paths : List String}
    (h : ∀ path ∈ paths, ∀ vs, s.get path ≠ .ok (.list vs)) : s.Apart paths :=
  fun path hpath _ vs _ _ hvs => absurd hvs (h path hpath vs)

theorem Apart.mono {paths names : List String} (h : s.Apart paths)
    (hnames : ∀ path ∈ names, path ∈ paths) : s.Apart names :=
  fun path hpath p vs hread hwhole hvs path' hpath' =>
    h path (hnames path hpath) p vs hread hwhole hvs path' (hnames path' hpath')

/-- What has been written at paths that are apart can be written over. -/
theorem insert_again {xs ys : List (String × α)} (hapart : s.Apart (xs.map Prod.fst))
    (hkeys : ys.map Prod.fst = xs.map Prod.fst) :
    ((s.insert xs).2.insert ys).1 = (s.insert xs).1 := by
  let places : Path → Prop := fun q => q.component ≠ none ∧
    ∃ path ∈ xs.map Prod.fst, Path.read path = .ok q
  have hkept : s.AlikeOn places (s.insert xs).2 := by
    rintro q ⟨hcomponent, path', hpath', hread'⟩
    rcases s.room?_insert xs q with hsame | ⟨hnone, path, hpath, p, hread, hwhole, hplace⟩
    · exact hsame.symm
    -- A list that is lost was named as a whole, beside its component.
    · rw [hnone, room?_congr hplace]
      refine room?_of_get hread hwhole fun vs hvs => hcomponent ?_
      exact hapart path hpath p vs hread hwhole hvs path' hpath' q hread' hplace
  exact (insert_alike hkept (fun path hpath p hread hcomponent => ⟨hcomponent, path, hpath, hread⟩)
    hkeys.symm).symm

end Shapes.Store

end DiagramLayout
