import Quasiquote.Proofs.Threading

namespace Quasiquote

namespace Descent

variable {name : String} {path outer outer' : List Descent} {symbol : Option Symbol}

theorem Innermost.of_clear_append (h : Innermost name (path ++ outer) symbol)
    (hclear : Clear name outer path) : Innermost name outer symbol := by
  induction path with
  | nil => exact h
  | cons d path ih =>
    cases h with
    | declared h => exact absurd h hclear.1.2
    | outward _ h => exact ih h hclear.2

theorem Innermost.cases_append (h : Innermost name (path ++ outer) symbol) :
    (∃ d ∈ path, symbol = some (.named d.node.key name)) ∨ Innermost name outer symbol := by
  induction path with
  | nil => exact .inr h
  | cons d path ih =>
    cases h with
    | declared => exact .inl ⟨d, List.mem_cons_self, rfl⟩
    | outward _ h =>
      refine (ih h).imp_left ?_
      rintro ⟨e, he, hsymbol⟩
      exact ⟨e, List.mem_cons_of_mem _ he, hsymbol⟩

/-- On a way through references that is not clear, a name is declared. -/
theorem Innermost.exists_of_not_clear (h : Innermost name (path ++ outer) symbol)
    (href : ∀ d ∈ path, d.isReference = true) (hclear : ¬Clear name outer path) :
    ∃ d ∈ path, symbol = some (.named d.node.key name) := by
  induction path with
  | nil => exact absurd trivial hclear
  | cons d path ih =>
    obtain ⟨hd, hrest⟩ := List.forall_mem_cons.mp href
    cases h with
    | declared => exact ⟨d, List.mem_cons_self, rfl⟩
    | outward hno h =>
      obtain ⟨e, he, hsymbol⟩ := ih h hrest fun hc => hclear ⟨⟨hd, hno⟩, hc⟩
      exact ⟨e, List.mem_cons_of_mem _ he, hsymbol⟩

end Descent

namespace FilePass

variable {p : FilePass} {name : String}

inductive Shielded (p : FilePass) (name : String) : List Descent → Prop
  | declared {d : Descent} {outer : List Descent} (h : d.Declares name outer) :
    Shielded p name (d :: outer)
  | outward {d : Descent} {outer : List Descent} (hs : p.isUseSite d.node = false)
    (ho : Shielded p name outer) : Shielded p name (d :: outer)

theorem Dropped.not_shielded {way outer : List Descent} (h : p.Dropped way) (houter : outer ≠ []) :
    ¬p.Shielded name (way ++ outer) := by
  obtain ⟨-, hquiet, d, hd, hsite⟩ := h
  induction way with
  | nil => cases hd
  | cons e way ih =>
    obtain ⟨he, hrest⟩ := List.forall_mem_cons.mp hquiet
    intro hshielded
    cases hshielded with
    | declared h =>
      exact Descent.not_declares_of_kind he.block he.function (by simp [houter]) h
    | outward hs ho =>
      obtain rfl | hd := List.mem_cons.mp hd
      · simp [hs] at hsite
      · exact ih hrest hd ho

namespace Carries

variable {R : Node → Node → Prop} {fresh : Node → Prop} {path path' outer outer' : List Descent}

/-- A way goes through references if and only if the way before did. -/
theorem reference (hR : ∀ n m, p.isUseSite n = false → R n m → n.kind = m.kind)
    (h : p.Carries R fresh path path') :
    (∀ d ∈ path', d.isReference = true) ↔ ∀ d ∈ path, d.isReference = true := by
  induction h with
  | nil => exact Iff.rfl
  | keep hs h _ ih =>
    simp only [List.forall_mem_cons, ih]
    rw [Descent.isReference, Descent.isReference, hR _ _ hs h]
  | leap hdropped hway _ ih =>
    simp only [List.forall_mem_append, ih]
    refine and_congr_left fun _ => ⟨fun _ d hd => (hdropped.quiet d hd).reference, fun _ => ?_⟩
    exact hway.reference

theorem alike (hR : ∀ n m, p.isUseSite n = false → R n m → n.kind = m.kind)
    (h : p.Carries R fresh path path') (ho : Descent.Alike outer outer') :
    Descent.Alike (path ++ outer) (path' ++ outer') := by
  cases h with
  | nil => exact ho
  | keep hs h => exact ⟨by simp, by simp [Descent.ReachesBody, hR _ _ hs h]⟩
  | leap hdropped hway =>
    obtain ⟨d, rest, rfl, hd⟩ := hdropped.label
    obtain ⟨d', rest', rfl, hd'⟩ := hway.label
    exact ⟨by simp, by simp [Descent.ReachesBody, hd, hd']⟩

end Carries

section

variable {bound : Nat} {path path' outer outer' : List Descent} {symbol : Option Symbol}

theorem Becomes.declares_iff {n m : Node} {l : Label} (h : p.Becomes bound n m)
    (hs : p.isUseSite n = false) (ho : Descent.Alike outer outer') :
    Descent.Declares name ⟨m, l⟩ outer' ↔ Descent.Declares name ⟨n, l⟩ outer := by
  have hmirrors : n.Keeps Node.Mirrors m :=
    (h.keeps hs).1.imp fun _ _ => (p.isTrace_becomes bound).mirrors
  exact ⟨fun hd => hd.of_keeps hmirrors.symm ho.symm, fun hd => hd.of_keeps hmirrors ho⟩

theorem Becomes.kind_eq (n m : Node) (hs : p.isUseSite n = false) (h : p.Becomes bound n m) :
    n.kind = m.kind :=
  (h.keeps hs).1.kind

theorem Becomes.key_eq {n m : Node} (h : p.Becomes bound n m) (hs : p.isUseSite n = false) :
    m.key = n.key := by
  rw [Node.key, Node.id?, (h.keeps hs).2.1]
  rfl

structure Captures (p : FilePass) (bound : Nat) (name : String) (path : List Descent)
    (symbol : Option Symbol) : Prop where
  binds : p.Binds name
  declared : ∃ d ∈ path, symbol = some (.named d.node.key name) ∧
    ∀ b ∈ d.node.ownBindings, bound ≤ b.declaration.key

theorem Captures.mono (h : p.Captures bound name path symbol) (hsub : path ⊆ path') :
    p.Captures bound name path' symbol := by
  obtain ⟨hbinds, d, hd, hdeclared⟩ := h
  exact ⟨hbinds, d, hsub hd, hdeclared⟩

/-- The scopes of a generated function capture a name that the function declares, and no other. -/
theorem Generated.captures_or_innermost {way : List Descent}
    (h : p.Generated (fun y => bound ≤ y.key) way) (houter : outer ≠ [])
    (hi : Descent.Innermost name (way ++ outer) symbol) :
    p.Captures bound name way symbol ∨ Descent.Innermost name outer symbol := by
  by_cases hbinds : p.Binds name
  · obtain ⟨d, hd, hsymbol⟩ | hi := hi.cases_append
    · exact .inl ⟨hbinds, d, hd, hsymbol, h.bindings d hd⟩
    · exact .inr hi
  · exact .inr (hi.of_clear_append ((h.clear name _ houter).mpr hbinds))

/-- A name in an expanded file is captured by a function that took the place of a use site, stands
for what it did inside the file, or for what it is around the file's own nodes. -/
theorem Carries.innermost (h : p.Carries (p.Becomes bound) (fun y => bound ≤ y.key) path path')
    (ho : Descent.Alike outer outer') (houter : outer ≠ [])
    (hi : Descent.Innermost name (path' ++ outer') symbol) :
    (p.Captures bound name path' symbol ∧ ¬p.Shielded name (path ++ outer)) ∨
    (∃ d ∈ path, ∃ d' ∈ path', p.isUseSite d.node = false ∧ p.Becomes bound d.node d'.node ∧
      symbol = some (.named d.node.key name) ∧ Descent.Innermost name (path ++ outer) symbol) ∨
    (Descent.Innermost name outer' symbol ∧ ∀ s, Descent.Innermost name outer s →
      Descent.Innermost name (path ++ outer) s) := by
  have houter' : outer' ≠ [] := mt ho.nil.mpr houter
  induction h with
  | nil => exact .inr (.inr ⟨hi, fun s hs => hs⟩)
  | @keep n m l path path' hs hnm hpath ih =>
    have hiff : Descent.Declares name ⟨m, l⟩ (path' ++ outer') ↔
        Descent.Declares name ⟨n, l⟩ (path ++ outer) :=
      hnm.declares_iff hs (hpath.alike Becomes.kind_eq ho)
    cases hi with
    | declared hd =>
      refine .inr (.inl ⟨⟨n, l⟩, List.mem_cons_self, ⟨m, l⟩, List.mem_cons_self, hs, hnm, ?_, ?_⟩)
      · rw [hnm.key_eq hs]
      · rw [hnm.key_eq hs]
        exact .declared (hiff.mp hd)
    | outward hno hi =>
      have hno' := mt hiff.mpr hno
      obtain ⟨hcaptures, hshielded⟩ | ⟨d, hd, d', hd', hsite, hdd, hsymbol, hin⟩ | ⟨hroot, hin⟩ := ih hi
      · refine .inl ⟨hcaptures.mono (List.subset_cons_self _ _), fun h => ?_⟩
        cases h with
        | declared h => exact hno' h
        | outward _ h => exact hshielded h
      · exact .inr (.inl ⟨d, List.mem_cons_of_mem _ hd, d', List.mem_cons_of_mem _ hd', hsite, hdd,
          hsymbol, .outward hno' hin⟩)
      · exact .inr (.inr ⟨hroot, fun s hs => .outward hno' (hin s hs)⟩)
  | @leap dropped way path path' hdropped hway hpath ih =>
    rw [List.append_assoc] at hi ⊢
    have hne : path ++ outer ≠ [] := by simp [houter]
    have hclear : Descent.Clear name (path ++ outer) dropped :=
      Descent.clear_of_isQuiet hdropped.quiet hne
    have hshielded : ¬p.Shielded name (dropped ++ (path ++ outer)) := hdropped.not_shielded hne
    obtain hcaptures | hi := hway.captures_or_innermost (by simp [houter']) hi
    · exact .inl ⟨hcaptures.mono (List.subset_append_left _ _), hshielded⟩
    obtain ⟨hcaptures, -⟩ | ⟨d, hd, d', hd', hsite, hdd, hsymbol, hin⟩ | ⟨hroot, hin⟩ := ih hi
    · exact .inl ⟨hcaptures.mono (List.subset_append_right _ _), hshielded⟩
    · exact .inr (.inl ⟨d, List.mem_append_right _ hd, d', List.mem_append_right _ hd', hsite, hdd,
        hsymbol, .of_clear hclear hin⟩)
    · exact .inr (.inr ⟨hroot, fun s hs => .of_clear hclear (hin s hs)⟩)

/-- A name that a use site would bind, and that is declared outside of one, is captured. -/
theorem Carries.captured (h : p.Carries (p.Becomes bound) (fun y => bound ≤ y.key) path path')
    (ho : Descent.Alike outer outer') (houter : outer ≠ []) (hbinds : p.Binds name) {before : Symbol}
    (hroot : Descent.Innermost name outer (some before) → p.Shielded name outer)
    (hin : Descent.Innermost name (path ++ outer) (some before))
    (hshielded : ¬p.Shielded name (path ++ outer))
    (hi : Descent.Innermost name (path' ++ outer') symbol) : p.Captures bound name path' symbol := by
  have houter' : outer' ≠ [] := mt ho.nil.mpr houter
  induction h with
  | nil => exact absurd (hroot hin) hshielded
  | @keep n m l path path' hs hnm hpath ih =>
    have hno : ¬Descent.Declares name ⟨n, l⟩ (path ++ outer) := fun h => hshielded (.declared h)
    have hno' := mt (hnm.declares_iff hs (hpath.alike Becomes.kind_eq ho)).mp hno
    cases hin with
    | declared h => exact absurd h hno
    | outward _ hin =>
      cases hi with
      | declared h => exact absurd h hno'
      | outward _ hi =>
        have hcaptures := ih hin (fun h => hshielded (.outward hs h)) hi
        exact hcaptures.mono (List.subset_cons_self _ _)
  | @leap dropped way path path' _ hway _ _ =>
    rw [List.append_assoc] at hi
    have hclear : ¬Descent.Clear name (path' ++ outer') way := fun hc =>
      (hway.clear name _ (by simp [houter'])).mp hc hbinds
    obtain ⟨d, hd, hsymbol⟩ := hi.exists_of_not_clear hway.reference hclear
    exact ⟨hbinds, d, List.mem_append_left _ hd, hsymbol, hway.bindings d hd⟩

end

end FilePass

end Quasiquote
