import Horn.Proofs.ProgramStates

/-!
Changes of a mode table.  Modes and determinations are added and removed in any order.  Adding a
determination looks for the modes of its predicates; removing a mode does not look for the
determinations that name it, so a determination can outlive its modes.  Removing body predicates
narrows what a head allows, down to the last one: a determination that is left without any goes, and
a head without a determination allows every body mode.
-/

namespace Horn

namespace Determination

/-- The predicates of a determination, with the kind of mode that each of them asks for. -/
def Names (d : Determination) : ModeKind → Signature → Prop
  | .head, s => s = d.head
  | .body, s => s ∈ d.body

/-- The determination without the body predicates of another one. -/
def without (d gone : Determination) : Determination :=
  { d with body := d.body.filter fun s => !gone.body.contains s }

variable {d old new : Determination} {kind : ModeKind} {s : Signature}

theorem Names.of_sublist (hs : d.Names kind s) (hhead : old.head = d.head)
    (hbody : d.body.Sublist old.body) : old.Names kind s := by
  cases kind with
  | head => exact hs.trans hhead.symm
  | body => exact hbody.subset hs

theorem Names.of_merged (hs : (ModeTable.merged old new).Names kind s) :
    old.Names kind s ∨ new.Names kind s := by
  cases kind with
  | head => exact .inl hs
  | body => exact ModeTable.mem_merged hs

theorem without_body_eq_nil {d gone : Determination} :
    (d.without gone).body = [] ↔ d.body ⊆ gone.body := by
  simp [without, List.filter_eq_nil_iff, List.subset_def]

theorem without_eq_self_iff {d gone : Determination} :
    (d.without gone).body.length = d.body.length ↔ d.without gone = d := by
  rw [without, List.length_filter_eq_length_iff, ← List.filter_eq_self]
  cases d
  simp

end Determination

namespace ModeTable

variable {t t' : ModeTable} {d old new : Determination} {kind : ModeKind} {s : Signature}

/-! ## What one change does -/

theorem mem_modes_removeMode {m n : Mode} : n ∈ (t.removeMode m).2.modes ↔ n ∈ t.modes ∧ n ≠ m := by
  simp [removeMode]

/-- The predicates of a determination that is accepted have modes. -/
theorem exists_mode_of_addDetermination (h : t.addDetermination d = .ok t') (hs : d.Names kind s) :
    ∃ m ∈ t.modes, m.kind = kind ∧ m.signature = s := by
  obtain ⟨⟨hhead, hbody⟩, -⟩ := addDetermination_eq_ok.1 h
  cases kind with
  | head => exact hs ▸ requireMode_iff.1 hhead
  | body => exact requireMode_iff.1 (hbody s hs)

/-- The first element that fits is the one that is changed. -/
theorem mapFirst?_append {α : Type} {fits : α → Bool} {f : α → α} {front back : List α} {a : α}
    (hfront : ∀ x ∈ front, fits x = false) (ha : fits a = true) :
    mapFirst? fits f (front ++ a :: back) = some (front ++ f a :: back) := by
  induction front with
  | nil => simp [mapFirst?, ha]
  | cons x front ih =>
    obtain ⟨hx, hfront⟩ := List.forall_mem_cons.1 hfront
    simp [mapFirst?, hx, ih hfront]

theorem removeDetermination_of_none
    (hfind : t.determinations.find? (fun e => e.head == d.head) = none) :
    t.removeDetermination d = (false, t) := by
  rw [removeDetermination, hfind]

/-- Removal changes the first determination of the head, or drops it when nothing of its body is
left. -/
theorem removeDetermination_of_some
    (hfind : t.determinations.find? (fun e => e.head == d.head) = some old) :
    ∃ front back, t.determinations = front ++ old :: back ∧ old.head = d.head ∧
      (∀ e ∈ front, e.head ≠ d.head) ∧
      t.removeDetermination d = ((old.without d).body.length != old.body.length,
        { t with determinations := front ++
            (if (old.without d).body.isEmpty then [] else [old.without d]) ++ back }) := by
  obtain ⟨hold, front, back, hsplit, hfront⟩ := List.find?_eq_some_iff_append.1 hfind
  simp only [Bool.not_eq_eq_eq_not, Bool.not_true] at hfront
  refine ⟨front, back, hsplit, by simpa using hold, fun e he => by simpa using hfront e he, ?_⟩
  have hdrop : t.determinations.eraseP (fun e => e.head == d.head) = front ++ back := by
    rw [hsplit, List.eraseP_append_right _ (by simpa using hfront),
      List.eraseP_cons_of_pos (p := fun e : Determination => e.head == d.head) hold]
  have hchange : mapFirst? (fun e => e.head == d.head)
      (fun e => { e with body := (old.without d).body }) t.determinations =
        some (front ++ old.without d :: back) :=
    hsplit ▸ mapFirst?_append hfront hold
  rw [removeDetermination, hfind]
  change (_, ModeTable.mk _ (if (old.without d).body.isEmpty then _ else
    (mapFirst? _ (fun e => { e with body := (old.without d).body }) _).getD _)) = _
  rw [hdrop, hchange]
  refine Prod.ext rfl (congrArg (ModeTable.mk t.modes) ?_)
  split <;> simp

theorem removeDetermination_cases (t : ModeTable) (d : Determination) :
    t.removeDetermination d = (false, t) ∨
    ∃ front old back, t.determinations = front ++ old :: back ∧
      t.removeDetermination d = ((old.without d).body.length != old.body.length,
        { t with determinations := front ++
            (if (old.without d).body.isEmpty then [] else [old.without d]) ++ back }) := by
  cases hfind : t.determinations.find? fun e => e.head == d.head with
  | none => exact .inl (removeDetermination_of_none hfind)
  | some old =>
    obtain ⟨front, back, hsplit, -, -, h⟩ := removeDetermination_of_some hfind
    exact .inr ⟨front, old, back, hsplit, h⟩

/-! ## Changes in a row -/

/-- A change of a mode table. -/
inductive Change where
  | addMode (m : Mode)
  | removeMode (m : Mode)
  | addDetermination (d : Determination)
  | removeDetermination (d : Determination)

/-- The table after a change; a determination that is refused leaves it as it is. -/
def change (t : ModeTable) : Change → ModeTable
  | .addMode m => (t.addMode m).2
  | .removeMode m => (t.removeMode m).2
  | .addDetermination d => (t.addDetermination d).toOption.getD t
  | .removeDetermination d => (t.removeDetermination d).2

/-- The table that changes make of the empty one. -/
def after (cs : List Change) : ModeTable := cs.foldl change empty

@[simp] theorem after_concat (cs : List Change) (c : Change) :
    after (cs ++ [c]) = (after cs).change c := by
  rw [after, List.foldl_append]
  rfl

/-- The table has a mode of the kind for the predicate. -/
def Declares (t : ModeTable) (kind : ModeKind) (s : Signature) : Prop :=
  ∃ m ∈ t.modes, m.kind = kind ∧ m.signature = s

instance : Decidable (t.Declares kind s) :=
  inferInstanceAs (Decidable (∃ m ∈ t.modes, m.kind = kind ∧ m.signature = s))

/-- An addition does nothing, or it is accepted. -/
theorem change_addDetermination_cases (t : ModeTable) (d : Determination) :
    t.change (.addDetermination d) = t ∨
      t.addDetermination d = .ok (t.change (.addDetermination d)) := by
  rw [change]
  cases t.addDetermination d with
  | error why => exact .inl rfl
  | ok t' => exact .inr rfl

theorem modes_change_addDetermination (t : ModeTable) (d : Determination) :
    (t.change (.addDetermination d)).modes = t.modes := by
  rcases change_addDetermination_cases t d with h | h
  · rw [h]
  · obtain ⟨-, h⟩ := addDetermination_eq_ok.1 h
    rw [h]

theorem modes_change_removeDetermination (t : ModeTable) (d : Determination) :
    (t.change (.removeDetermination d)).modes = t.modes := by
  rcases removeDetermination_cases t d with h | ⟨front, old, back, -, h⟩ <;>
    simp [change, h]

/-- Only its own removal takes a mode away. -/
theorem mem_modes_change {c : Change} {m : Mode} (hm : m ∈ t.modes) (hc : c ≠ .removeMode m) :
    m ∈ (t.change c).modes := by
  cases c with
  | addMode n => exact mem_modes_addMode.2 (.inl hm)
  | removeMode n => exact mem_modes_removeMode.2 ⟨hm, fun h => hc (h ▸ rfl)⟩
  | addDetermination d => rwa [modes_change_addDetermination]
  | removeDetermination d => rwa [modes_change_removeDetermination]

theorem nodup_modes_change (c : Change) (h : t.modes.Nodup) : (t.change c).modes.Nodup := by
  cases c with
  | addMode m => exact nodup_modes_addMode h m
  | removeMode m => exact h.filter _
  | addDetermination d => rwa [modes_change_addDetermination]
  | removeDetermination d => rwa [modes_change_removeDetermination]

theorem nodup_heads_change (c : Change) (h : (t.determinations.map Determination.head).Nodup) :
    ((t.change c).determinations.map Determination.head).Nodup := by
  cases c with
  | addMode m => rwa [change, determinations_addMode]
  | removeMode m => exact h
  | addDetermination d =>
    rcases change_addDetermination_cases t d with hd | hd
    · rwa [hd]
    · exact nodup_heads_addDetermination h hd
  | removeDetermination d =>
    rcases removeDetermination_cases t d with hd | ⟨front, old, back, hsplit, hd⟩
    · rwa [change, hd]
    · refine h.sublist ?_
      rw [change, hd, hsplit, List.map_append, List.map_append, List.map_append, List.append_assoc]
      refine (List.Sublist.refl _).append ?_
      split
      · exact List.sublist_cons_self _ _
      · exact List.Sublist.refl _

/-- After an addition a determination is one from before, or the added one, alone or merged into the
one of its head. -/
theorem mem_determinations_addDetermination (h : t.addDetermination new = .ok t')
    (hd : d ∈ t'.determinations) : d ∈ t.determinations ∨ new.head = d.head ∧
      (d = new ∨ ∃ old ∈ t.determinations, old.head = d.head ∧ d = merged old new) := by
  rcases determinations_addDetermination h with ⟨hdets, -⟩ |
    ⟨front, old, back, hsplit, hold, hdets⟩
  · rw [hdets] at hd
    rcases List.mem_append.1 hd with hd | hd
    · exact .inl hd
    · cases List.mem_singleton.1 hd
      exact .inr ⟨rfl, .inl rfl⟩
  · simp only [hdets, List.mem_append, List.mem_cons] at hd
    rcases hd with hd | rfl | hd
    · exact .inl (by simp [hsplit, hd])
    · exact .inr ⟨hold.symm, .inr ⟨old, by simp [hsplit], rfl, rfl⟩⟩
    · exact .inl (by simp [hsplit, hd])

/-- After a removal a determination is what is left of one from before. -/
theorem mem_determinations_removeDetermination {gone : Determination}
    (hd : d ∈ (t.removeDetermination gone).2.determinations) :
    ∃ old ∈ t.determinations, old.head = d.head ∧ d.body.Sublist old.body := by
  rcases removeDetermination_cases t gone with h | ⟨front, old, back, hsplit, h⟩
  · rw [h] at hd
    exact ⟨d, hd, rfl, List.Sublist.refl _⟩
  · simp only [h, List.mem_append] at hd
    rcases hd with (hd | hd) | hd
    · exact ⟨d, by simp [hsplit, hd], rfl, List.Sublist.refl _⟩
    · split at hd
      next => cases hd
      next =>
        cases List.mem_singleton.1 hd
        exact ⟨old, by simp [hsplit], rfl, List.filter_sublist⟩
    · exact ⟨d, by simp [hsplit, hd], rfl, List.Sublist.refl _⟩

/-- Where a determination comes from: it was there, with at least its body predicates, or it is the
added one, alone or merged into the one of its head. -/
theorem mem_determinations_change {c : Change} (hd : d ∈ (t.change c).determinations) :
    (∃ old ∈ t.determinations, old.head = d.head ∧ d.body.Sublist old.body) ∨
    ∃ new, c = .addDetermination new ∧ new.head = d.head ∧
      (∀ {kind s}, new.Names kind s → (t.change c).Declares kind s) ∧
      (d = new ∨ ∃ old ∈ t.determinations, old.head = d.head ∧ d = merged old new) := by
  have kept (hd : d ∈ t.determinations) :
      ∃ old ∈ t.determinations, old.head = d.head ∧ d.body.Sublist old.body :=
    ⟨d, hd, rfl, List.Sublist.refl _⟩
  cases c with
  | addMode m =>
    rw [change, determinations_addMode] at hd
    exact .inl (kept hd)
  | removeMode m => exact .inl (kept hd)
  | removeDetermination gone => exact .inl (mem_determinations_removeDetermination hd)
  | addDetermination new =>
    rcases change_addDetermination_cases t new with h | h
    · exact .inl (kept (h ▸ hd))
    · rcases mem_determinations_addDetermination h hd with hd | ⟨hhead, hnew⟩
      · exact .inl (kept hd)
      · refine .inr ⟨new, rfl, hhead, fun hs => ?_, hnew⟩
        rw [Declares, modes_change_addDetermination]
        exact exists_mode_of_addDetermination h hs

/-! ## What the changes keep -/

theorem count_withMember (xs : List Signature) (x s : Signature) :
    (withMember xs x).count s ≤ max 1 (xs.count s) := by
  rw [withMember]
  split
  next => exact Nat.le_max_right ..
  next hx =>
    rw [List.contains_iff_mem] at hx
    rw [List.count_append]
    by_cases hs : s = x
    · simp [hs, List.count_eq_zero_of_not_mem hx]
    · rw [List.count_eq_zero_of_not_mem (mt List.mem_singleton.1 hs)]
      exact Nat.le_max_right ..

theorem count_foldl_withMember (xs ys : List Signature) (s : Signature) :
    (ys.foldl withMember xs).count s ≤ max 1 (xs.count s) := by
  induction ys generalizing xs with
  | nil => exact Nat.le_max_right ..
  | cons y ys ih =>
    have hfirst := count_withMember xs y s
    have hrest := ih (withMember xs y)
    rw [List.foldl_cons]
    omega

/-- Merging does not list a predicate again. -/
theorem count_merged (old new : Determination) (s : Signature) :
    (merged old new).body.count s ≤ max 1 (old.body.count s) :=
  count_foldl_withMember old.body new.body s

theorem nodup_modes_after (cs : List Change) : (after cs).modes.Nodup := by
  induction cs using List.reverseRecOn with
  | nil => exact .nil
  | append_singleton cs c ih => exact after_concat cs c ▸ nodup_modes_change c ih

theorem nodup_heads_after (cs : List Change) :
    ((after cs).determinations.map Determination.head).Nodup := by
  induction cs using List.reverseRecOn with
  | nil => exact .nil
  | append_singleton cs c ih => exact after_concat cs c ▸ nodup_heads_change c ih

/-- A predicate stands twice in a body only where a determination with as many was given. -/
theorem exists_added_of_count {cs : List Change} (hd : d ∈ (after cs).determinations)
    (hs : 1 < d.body.count s) :
    ∃ e, Change.addDetermination e ∈ cs ∧ e.head = d.head ∧ d.body.count s ≤ e.body.count s := by
  induction cs using List.reverseRecOn generalizing d with
  | nil => cases hd
  | append_singleton cs c ih =>
    have hold {old : Determination} (hmem : old ∈ (after cs).determinations)
        (hhead : old.head = d.head) (hcount : d.body.count s ≤ old.body.count s) :
        ∃ e, Change.addDetermination e ∈ cs ++ [c] ∧ e.head = d.head ∧
          d.body.count s ≤ e.body.count s := by
      obtain ⟨e, he, hsame, hless⟩ := ih hmem (Nat.lt_of_lt_of_le hs hcount)
      exact ⟨e, List.mem_append_left _ he, hsame.trans hhead, Nat.le_trans hcount hless⟩
    rw [after_concat] at hd
    rcases mem_determinations_change hd with ⟨old, hmem, hhead, hbody⟩ |
      ⟨new, rfl, -, -, rfl | ⟨old, hmem, hhead, rfl⟩⟩
    · exact hold hmem hhead (hbody.count_le s)
    · exact ⟨d, by simp, rfl, Nat.le_refl _⟩
    · refine hold hmem hhead ?_
      have hmerged := count_merged old new s
      omega

/-- A mode of the kind for the predicate was removed while the determination of the head named the
predicate. -/
def Outlived (cs : List Change) (head : Signature) (kind : ModeKind) (s : Signature) : Prop :=
  ∃ front m back, cs = front ++ .removeMode m :: back ∧
    m ∈ (after front).modes ∧ m.kind = kind ∧ m.signature = s ∧
    ∃ e ∈ (after front).determinations, e.head = head ∧ e.Names kind s

theorem Outlived.concat {cs : List Change} {head : Signature} (h : Outlived cs head kind s)
    (c : Change) : Outlived (cs ++ [c]) head kind s := by
  obtain ⟨front, m, back, rfl, h⟩ := h
  exact ⟨front, m, back ++ [c], by simp, h⟩

theorem declares_or_outlived {cs : List Change} (hd : d ∈ (after cs).determinations)
    (hs : d.Names kind s) : (after cs).Declares kind s ∨ Outlived cs d.head kind s := by
  induction cs using List.reverseRecOn generalizing d with
  | nil => cases hd
  | append_singleton cs c ih =>
    -- The mode of a determination from before is still there, or this change is what removes it.
    have hold {old : Determination} (hmem : old ∈ (after cs).determinations)
        (hhead : old.head = d.head) (hnames : old.Names kind s) :
        ((after cs).change c).Declares kind s ∨ Outlived (cs ++ [c]) d.head kind s := by
      rcases ih hmem hnames with ⟨m, hm, hkind, hsig⟩ | hgone
      · by_cases hc : c = .removeMode m
        · exact .inr ⟨cs, m, [], hc ▸ rfl, hm, hkind, hsig, old, hmem, hhead, hnames⟩
        · exact .inl ⟨m, mem_modes_change hm hc, hkind, hsig⟩
      · exact .inr (hhead ▸ hgone.concat c)
    rw [after_concat] at hd ⊢
    rcases mem_determinations_change hd with ⟨old, hmem, hhead, hbody⟩ |
      ⟨new, -, -, hnew, rfl | ⟨old, hmem, hhead, rfl⟩⟩
    · exact hold hmem hhead (hs.of_sublist hhead hbody)
    · exact .inl (hnew hs)
    · rcases hs.of_merged with hs | hs
      · exact hold hmem hhead hs
      · exact .inl (hnew hs)

/-- Whatever the changes, no mode stands twice and no head has two determinations; a body names a
predicate twice only as a given determination does; and each predicate of a determination has a mode
of its kind, except where a mode was removed under the determination. -/
theorem after_is_declared (cs : List Change) :
    (after cs).modes.Nodup ∧
    ((after cs).determinations.map Determination.head).Nodup ∧
    ∀ d ∈ (after cs).determinations,
      (∀ s, 1 < d.body.count s → ∃ e, Change.addDetermination e ∈ cs ∧ e.head = d.head ∧
        d.body.count s ≤ e.body.count s) ∧
      ∀ kind s, d.Names kind s → (after cs).Declares kind s ∨ Outlived cs d.head kind s :=
  ⟨nodup_modes_after cs, nodup_heads_after cs, fun _ hd =>
    ⟨fun _ => exists_added_of_count hd, fun _ _ => declares_or_outlived hd⟩⟩

end ModeTable

namespace Sample

/-- A predicate without arguments as a mode. -/
def bareMode (kind : ModeKind) (name : String) : Mode := ⟨kind, .unbounded, ⟨name, []⟩, rfl⟩

/-- The body predicates `b`, given twice, and `c` under the head `h`. -/
def doubled : Determination := ⟨⟨"h", 0⟩, [⟨"b", 0⟩, ⟨"b", 0⟩, ⟨"c", 0⟩]⟩

open ModeTable in
/-- The mode of `b` is removed under the determination. -/
def changes : List ModeTable.Change :=
  [.addMode (bareMode .head "h"), .addMode (bareMode .body "b"), .addMode (bareMode .body "c"),
    .addDetermination doubled, .removeMode (bareMode .body "b")]

end Sample

namespace ModeTable

open Sample

variable {t : ModeTable} {m : Mode} {d old : Determination}

/-- The determination names a predicate twice, and one whose mode is gone. -/
theorem determination_outlives_mode :
    doubled ∈ (after changes).determinations ∧ doubled.body.count ⟨"b", 0⟩ = 2 ∧
      ¬(after changes).Declares .body ⟨"b", 0⟩ := by
  decide

/-- It was given with the predicate twice, and the mode went under it. -/
theorem after_is_declared_doubled :
    doubled ∈ (after changes).determinations ∧ 1 < doubled.body.count ⟨"b", 0⟩ ∧
    (∃ e, Change.addDetermination e ∈ changes ∧ e.head = doubled.head ∧
      doubled.body.count ⟨"b", 0⟩ ≤ e.body.count ⟨"b", 0⟩) ∧
    doubled.Names .body ⟨"b", 0⟩ ∧ Outlived changes doubled.head .body ⟨"b", 0⟩ := by
  have hd : doubled ∈ (after changes).determinations := by decide
  have hcount : 1 < doubled.body.count ⟨"b", 0⟩ := by decide
  have hnames : doubled.Names .body ⟨"b", 0⟩ := List.mem_cons_self
  have hgone : ¬(after changes).Declares .body ⟨"b", 0⟩ := by decide
  obtain ⟨hgiven, hdeclared⟩ := (after_is_declared changes).2.2 doubled hd
  exact ⟨hd, hcount, hgiven _ hcount, hnames, (hdeclared _ _ hnames).resolve_left hgone⟩

/-! ## What removal leaves of a determination -/

/-- The body modes under a head are those of its first determination. -/
theorem bodyModesFor_eq
    (hfind : t.determinations.find? (fun e => e.head == m.signature) = some old) :
    t.bodyModesFor m = old.body.flatMap fun s => t.bodyModes.filter fun b => b.signature == s := by
  rw [bodyModesFor, hfind]

/-- A head without a determination allows every body mode. -/
theorem bodyModesFor_eq_bodyModes (h : ∀ e ∈ t.determinations, e.head ≠ m.signature) :
    t.bodyModesFor m = t.bodyModes := by
  have hfind : t.determinations.find? (fun e => e.head == m.signature) = none :=
    List.find?_eq_none.2 fun e he => by simpa using h e he
  rw [bodyModesFor, hfind]

/-- The modes of the predicates that are left are those of all, without the modes of the others. -/
theorem flatMap_modes_without (modes : List Mode) (old gone : Determination) :
    ((old.without gone).body.flatMap fun s => modes.filter fun b => b.signature == s) =
      (old.body.flatMap fun s => modes.filter fun b => b.signature == s).filter
        fun b => !gone.body.contains b.signature := by
  have hone (s : Signature) : (modes.filter fun b => b.signature == s).filter
      (fun b => !gone.body.contains b.signature) =
        if gone.body.contains s then [] else modes.filter fun b => b.signature == s := by
    rw [List.filter_filter]
    split
    next h =>
      refine List.filter_eq_nil_iff.2 fun b _ hb => ?_
      obtain ⟨hkept, rfl⟩ : b.signature ∉ gone.body ∧ b.signature = s := by simpa using hb
      exact hkept (List.contains_iff_mem.1 h)
    next h =>
      refine List.filter_congr fun b _ => ?_
      by_cases hb : b.signature = s <;> simp_all
  rw [Determination.without, List.filter_flatMap]
  simp only [hone]
  induction old.body with
  | nil => rfl
  | cons s body ih =>
    rw [List.filter_cons, List.flatMap_cons, ← ih]
    cases gone.body.contains s <;> simp

/-- While a body predicate is left, the head allows what it did, less the modes of the predicates
that are removed. -/
theorem bodyModesFor_removeDetermination (hm : m.signature = d.head)
    (hfind : t.determinations.find? (fun e => e.head == d.head) = some old)
    (hleft : ¬old.body ⊆ d.body) :
    (t.removeDetermination d).2.bodyModesFor m =
      (t.bodyModesFor m).filter fun b => !d.body.contains b.signature := by
  obtain ⟨front, back, -, hold, hfront, h⟩ := removeDetermination_of_some hfind
  rw [← Determination.without_body_eq_nil, ← List.isEmpty_iff] at hleft
  have hfound : (t.removeDetermination d).2.determinations.find? (fun e => e.head == m.signature) =
      some (old.without d) := by
    rw [h, if_neg hleft, hm]
    exact List.find?_eq_some_iff_append.2 ⟨by simpa [Determination.without] using hold, front, back,
      by simp, fun e he => by simpa using hfront e he⟩
  rw [bodyModesFor_eq hfound, bodyModesFor_eq (hm ▸ hfind), ← flatMap_modes_without, h]
  rfl

/-- Once no body predicate is left, the determination goes. -/
theorem determinations_removeDetermination
    (hfind : t.determinations.find? (fun e => e.head == d.head) = some old)
    (hnone : old.body ⊆ d.body) : (t.removeDetermination d).2.determinations =
      t.determinations.eraseP (fun e => e.head == d.head) := by
  rw [← Determination.without_body_eq_nil] at hnone
  rw [removeDetermination, hfind]
  change (if (old.without d).body.isEmpty then _ else _) = _
  rw [hnone]
  rfl

theorem bodyModesFor_removeDetermination_of_subset (hm : m.signature = d.head)
    (hfind : t.determinations.find? (fun e => e.head == d.head) = some old)
    (hnone : old.body ⊆ d.body)
    (honly : t.determinations.countP (fun e => e.head == d.head) = 1) :
    (t.removeDetermination d).2.bodyModesFor m = t.bodyModes := by
  obtain ⟨front, back, hsplit, hold, hfront, h⟩ := removeDetermination_of_some hfind
  rw [← Determination.without_body_eq_nil, ← List.isEmpty_iff] at hnone
  rw [if_pos hnone] at h
  have hback : back.countP (fun e => e.head == d.head) = 0 := by
    simp only [hsplit, List.countP_append, List.countP_cons, hold, beq_self_eq_true,
      if_true] at honly
    omega
  have hother : ∀ e ∈ (t.removeDetermination d).2.determinations, e.head ≠ m.signature := by
    intro e he
    simp only [h, List.append_nil, List.mem_append] at he
    rw [hm]
    rcases he with he | he
    · exact hfront e he
    · simpa using List.countP_eq_zero.1 hback e he
  rw [bodyModesFor_eq_bodyModes hother, h]
  rfl

/-- The answer is no when the determination of the head, if there is one, names none of the
predicates; if it names any at all, it stays as it is. -/
theorem removeDetermination_eq_self (hno : (t.removeDetermination d).1 = false)
    (hbody : ∀ old, t.determinations.find? (fun e => e.head == d.head) = some old → old.body ≠ []) :
    (t.removeDetermination d).2 = t := by
  cases hfind : t.determinations.find? fun e => e.head == d.head with
  | none => rw [removeDetermination_of_none hfind]
  | some old =>
    obtain ⟨front, back, hsplit, -, -, h⟩ := removeDetermination_of_some hfind
    rw [h] at hno
    have hsame : old.without d = old :=
      Determination.without_eq_self_iff.1 (by simpa using hno)
    have hkept : ¬old.body.isEmpty := by simpa using hbody old hfind
    rw [h, hsame, if_neg hkept]
    simp [← hsplit]

/-- Removal takes from a head's determination the predicates that it lists, and what the head allows
is narrowed by their modes, as long as one predicate is left; when none is left of some, the
determination goes, and if it was the only one for the head every body mode is allowed.  Where there
was something in the body, the answer is no only if nothing changes. -/
theorem removeDetermination_restricts (t : ModeTable) (d : Determination) :
    (∀ m old, m.signature = d.head →
      t.determinations.find? (fun e => e.head == d.head) = some old →
      (¬old.body ⊆ d.body → (t.removeDetermination d).2.bodyModesFor m =
        (t.bodyModesFor m).filter fun b => !d.body.contains b.signature) ∧
      (old.body ≠ [] → old.body ⊆ d.body →
        (t.removeDetermination d).2.determinations =
          t.determinations.eraseP (fun e => e.head == d.head) ∧
        (t.determinations.countP (fun e => e.head == d.head) = 1 →
          (t.removeDetermination d).2.bodyModesFor m = t.bodyModes))) ∧
    ((t.removeDetermination d).1 = false →
      (∀ old, t.determinations.find? (fun e => e.head == d.head) = some old → old.body ≠ []) →
      (t.removeDetermination d).2 = t) :=
  ⟨fun _ _ hm hfind => ⟨bodyModesFor_removeDetermination hm hfind,
      fun _ hnone => ⟨determinations_removeDetermination hfind hnone,
        bodyModesFor_removeDetermination_of_subset hm hfind hnone⟩⟩,
    removeDetermination_eq_self⟩

end ModeTable

namespace Sample

/-- Allows one of two body predicates. -/
def onlyB : Determination := ⟨⟨"h", 0⟩, [⟨"b", 0⟩]⟩

/-- Allows both. -/
def both : Determination := ⟨⟨"h", 0⟩, [⟨"b", 0⟩, ⟨"c", 0⟩]⟩

/-- Two body modes and a head with a determination. -/
def allowing (d : Determination) : ModeTable :=
  ⟨[bareMode .head "h", bareMode .body "b", bareMode .body "c"], [d]⟩

end Sample

namespace ModeTable

open Sample

/-- Once its only predicate is removed, the head allows the mode that the determination left out,
where it should allow none.  A determination without body predicates goes although the answer is that
nothing was removed, and its head allows every mode from then on. -/
theorem removal_widens :
    ((allowing onlyB).bodyModesFor (bareMode .head "h") = [bareMode .body "b"] ∧
      ((allowing onlyB).removeDetermination onlyB).2.bodyModesFor (bareMode .head "h") =
        [bareMode .body "b", bareMode .body "c"] ∧
      ((allowing onlyB).bodyModesFor (bareMode .head "h")).filter
        (fun b => !onlyB.body.contains b.signature) = []) ∧
    let bodiless : ModeTable := allowing ⟨⟨"h", 0⟩, []⟩
    bodiless.bodyModesFor (bareMode .head "h") = [] ∧
      (bodiless.removeDetermination onlyB).1 = false ∧
      (bodiless.removeDetermination onlyB).2.determinations = [] ∧
      (bodiless.removeDetermination onlyB).2.bodyModesFor (bareMode .head "h") =
        [bareMode .body "b", bareMode .body "c"] := by
  decide

/-- With a predicate left the head keeps its mode, without one it gets every mode, and a removal
that finds nothing changes nothing. -/
theorem removeDetermination_restricts_both :
    ((allowing both).removeDetermination onlyB).2.bodyModesFor (bareMode .head "h") =
      [bareMode .body "c"] ∧
    ((allowing onlyB).removeDetermination both).2.bodyModesFor (bareMode .head "h") =
      [bareMode .body "b", bareMode .body "c"] ∧
    ((allowing onlyB).removeDetermination ⟨⟨"h", 0⟩, [⟨"c", 0⟩]⟩).2 = allowing onlyB := by
  have hnarrow := (removeDetermination_restricts (allowing both) onlyB).1 (bareMode .head "h") both
    rfl rfl
  have hdrop := (removeDetermination_restricts (allowing onlyB) both).1 (bareMode .head "h") onlyB
    rfl rfl
  exact ⟨(hnarrow.1 (by decide)).trans (by decide),
    ((hdrop.2 (by decide) (by decide)).2 (by decide)).trans (by decide),
    (removeDetermination_restricts (allowing onlyB) _).2 (by decide) (by decide)⟩

end ModeTable
end Horn
