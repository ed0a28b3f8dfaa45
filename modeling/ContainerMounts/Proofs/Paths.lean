/-
ContainerMounts.Proofs.Paths — paths that are written name by name.

The program reaches every file below a container's root by a path that it
writes itself: a path it was given, followed by names (`Path.joinNames`).
What the kernel makes of such a path is what it makes of the given path,
followed by one move down for each name (`moves_joinNames`), and what is
compared of it is the given path's components followed by the names
(`components_ofNames`).

Both hold for names that a directory entry can have (`PlainName`): a
name with a separator would be several moves, and `..` would be a move
up.
-/
import ContainerMounts.FileTree.Lookup
import ContainerMounts.Proofs.TextPieces
import Mathlib.Data.List.Basic

namespace ContainerMounts

/-- A name that an entry of a directory can have, as far as the reading of
paths is concerned. -/
structure PlainName (name : Name) : Prop where
  ne_nil : name ≠ []
  ne_dot : name ≠ dotName
  ne_dotDot : name ≠ dotDotName
  no_slash : slash ∉ name

instance (name : Name) : Decidable (PlainName name) :=
  decidable_of_iff (name ≠ [] ∧ name ≠ dotName ∧ name ≠ dotDotName ∧ slash ∉ name)
    ⟨fun ⟨h1, h2, h3, h4⟩ => ⟨h1, h2, h3, h4⟩, fun ⟨h1, h2, h3, h4⟩ => ⟨h1, h2, h3, h4⟩⟩

namespace PlainName

variable {name : Name}

theorem ofPiece?_move (h : PlainName name) : Move.ofPiece? name = some (.down name) := by
  simp [Move.ofPiece?, h.ne_nil, h.ne_dot, h.ne_dotDot]

theorem ofPiece?_component (h : PlainName name) :
    Component.ofPiece? name = some (.normal name) := by
  simp [Component.ofPiece?, h.ne_nil, h.ne_dot, h.ne_dotDot]

theorem not_absolute (h : slash ∉ name) : (Path.mk name).isAbsolute = false := by
  cases name with
  | nil => rfl
  | cons b rest =>
      have hb : b ≠ slash := fun hb => h (by simp [hb])
      simp [Path.isAbsolute, hb]

end PlainName

/-- A move down that a path asks for goes to a plain name. -/
theorem Move.plain_of_mem_moves {p : Path} {name : Name} (h : Move.down name ∈ p.moves) :
    PlainName name := by
  simp only [Path.moves, List.mem_append, List.mem_filterMap] at h
  rcases h with ⟨piece, hpiece, hmove⟩ | h
  · simp only [Move.ofPiece?] at hmove
    split at hmove
    · simp at hmove
    · split at hmove
      · simp at hmove
      · split at hmove
        · simp at hmove
        · rename_i h1 h2 h3
          obtain rfl : piece = name := by simpa using hmove
          exact ⟨h1, h2, h3, sep_notMem_of_mem_pieces piece hpiece⟩
  · split at h <;> simp at h

/-- A step down that a path asks for goes to one of its parts. -/
theorem Step.mem_parts_of_mem_steps {p : Path} {name : Name} (h : Step.down name ∈ p.steps) :
    name ∈ p.parts ∧ Component.ofPiece? name = some (.normal name) := by
  obtain ⟨c, hc, hstep⟩ := List.mem_filterMap.1 h
  have hnormal : c = .normal name := by
    cases c <;> simp_all [Path.stepOf?]
  subst hnormal
  have hbody : Component.normal name ∈ p.parts.filterMap Component.ofPiece? := by
    simp only [Path.components] at hc
    split at hc
    · simpa using hc
    · split at hc
      · simpa using hc
      · exact hc
  obtain ⟨piece, hpiece, hp⟩ := List.mem_filterMap.1 hbody
  have heq : piece = name := by
    simp only [Component.ofPiece?] at hp
    split at hp
    · simp at hp
    · split at hp
      · simp at hp
      · simpa using hp
  exact heq ▸ ⟨hpiece, heq ▸ hp⟩

/-- A step down that a path asks for goes to a plain name. -/
theorem Step.plain_of_mem_steps {p : Path} {name : Name} (h : Step.down name ∈ p.steps) :
    PlainName name := by
  obtain ⟨hpart, hp⟩ := Step.mem_parts_of_mem_steps h
  simp only [Component.ofPiece?] at hp
  split at hp
  · simp at hp
  · split at hp
    · simp at hp
    · rename_i h1 h2
      simp only [not_or] at h1
      exact ⟨h1.1, h1.2, h2, sep_notMem_of_mem_pieces name hpart⟩

theorem Step.notMem_of_mem_steps {p : Path} {name : Name} {b : UInt8}
    (h : Step.down name ∈ p.steps) (hb : b ∉ p.bytes) : b ∉ name :=
  fun hname => hb (mem_of_mem_pieces name (Step.mem_parts_of_mem_steps h).1 hname)

namespace Path

/-! ## Joining -/

theorem joinNames_nil (p : Path) : p.joinNames [] = p := rfl

theorem joinNames_cons (p : Path) (name : Name) (names : List Name) :
    p.joinNames (name :: names) = (p.join ⟨name⟩).joinNames names := rfl

theorem joinNames_append (p : Path) (xs ys : List Name) :
    p.joinNames (xs ++ ys) = (p.joinNames xs).joinNames ys := by
  simp [joinNames]

theorem joinNames_concat (p : Path) (names : List Name) (name : Name) :
    p.joinNames (names ++ [name]) = (p.joinNames names).join ⟨name⟩ := by
  rw [joinNames_append]
  rfl

theorem joinNames_singleton (p : Path) (name : Name) : p.joinNames [name] = p.join ⟨name⟩ := rfl

/-- A path of two names is joined as the one name and then the other. -/
theorem join_pair (p : Path) {a b : Name} (ha : PlainName a) (hb : PlainName b) :
    p.join ⟨a ++ slash :: b⟩ = p.joinNames [a, b] := by
  have hrel : (Path.mk (a ++ slash :: b)).isAbsolute = false := by
    have hhead := PlainName.not_absolute ha.no_slash
    obtain ⟨x, rest, rfl⟩ := List.exists_cons_of_ne_nil ha.ne_nil
    simpa [isAbsolute] using hhead
  have hlast : ∀ bytes : List UInt8, (bytes ++ a).getLast? ≠ some slash := by
    intro bytes
    rw [List.getLast?_append_of_ne_nil _ ha.ne_nil]
    exact fun h => ha.no_slash (List.mem_of_getLast? h)
  have hlast' : ∀ bytes : List UInt8, (bytes ++ slash :: a).getLast? ≠ some slash := by
    intro bytes
    have hassoc := hlast (bytes ++ [slash])
    rwa [List.append_assoc, List.singleton_append] at hassoc
  have ha' := PlainName.not_absolute ha.no_slash
  have hb' := PlainName.not_absolute hb.no_slash
  have hne := ha.ne_nil
  rw [joinNames_cons, joinNames_singleton]
  unfold join
  rw [hrel, ha', hb']
  split
  · simp_all
  · split <;> simp_all

theorem ofNames_append (xs ys : List Name) : ofNames (xs ++ ys) = (ofNames xs).joinNames ys :=
  joinNames_append root xs ys

/-- What the pieces of a path mean to a reading that ignores empty ones is
extended by one name, whether or not the path ends in a separator. -/
theorem filterMap_parts_join {β : Type} {f : Name → Option β} (hf : f [] = none) (p : Path)
    {name : Name} (hn : slash ∉ name) :
    (p.join ⟨name⟩).parts.filterMap f = p.parts.filterMap f ++ (f name).toList := by
  have hname : [name].filterMap f = (f name).toList := by
    cases h : f name <;> simp [h]
  simp only [join, PlainName.not_absolute hn, Bool.false_eq_true, if_false]
  split
  · rename_i hend
    simp only [Bool.or_eq_true, List.isEmpty_iff, beq_iff_eq] at hend
    rcases hend with hnil | hlast
    · simp [parts, hnil, pieces_eq_singleton hn, pieces, hf, hname]
    · obtain ⟨init, hinit⟩ := List.getLast?_eq_some_iff.1 hlast
      simp only [parts, hinit, List.append_assoc, List.singleton_append]
      rw [pieces_append_sep, pieces_append_sep, pieces_eq_singleton hn]
      simp [pieces, hf, hname]
  · simp only [parts]
    rw [pieces_append_sep, pieces_eq_singleton hn, List.filterMap_append, hname]

theorem filterMap_parts_joinNames {β : Type} {f : Name → Option β} (hf : f [] = none)
    {names : List Name} (hn : ∀ n ∈ names, slash ∉ n) (p : Path) :
    (p.joinNames names).parts.filterMap f = p.parts.filterMap f ++ names.filterMap f := by
  induction names generalizing p with
  | nil => simp [joinNames_nil]
  | cons name names ih =>
      have hhead := hn name (by simp)
      have htail : ∀ n ∈ names, slash ∉ n := fun n h => hn n (by simp [h])
      rw [joinNames_cons, ih htail, filterMap_parts_join hf p hhead, List.append_assoc]
      cases h : f name <;> simp [h]

theorem filterMap_ofPiece?_move {names : List Name} (h : ∀ n ∈ names, PlainName n) :
    names.filterMap Move.ofPiece? = names.map .down :=
  List.filterMap_eq_map_iff_forall_eq_some.2 fun n hn => (h n hn).ofPiece?_move

/-- The moves of the pieces between separators, without the one that a
separator at the end asks for. -/
def pieceMoves (p : Path) : List Move := p.parts.filterMap Move.ofPiece?

theorem pieceMoves_joinNames {names : List Name} (h : ∀ n ∈ names, PlainName n) (p : Path) :
    (p.joinNames names).pieceMoves = p.pieceMoves ++ names.map .down := by
  simp only [pieceMoves]
  rw [filterMap_parts_joinNames (by rfl) (fun n hn => (h n hn).no_slash),
    filterMap_ofPiece?_move h]

theorem join_getLast? (p : Path) {name : Name} (h : PlainName name) :
    (p.join ⟨name⟩).bytes.getLast? = name.getLast? := by
  simp only [join, PlainName.not_absolute h.no_slash, Bool.false_eq_true, if_false]
  have hne := h.ne_nil
  split
  · rw [List.getLast?_append_of_ne_nil _ hne]
  · obtain ⟨b, rest, rfl⟩ := List.exists_cons_of_ne_nil hne
    rw [List.getLast?_append_of_ne_nil _ (by simp), List.getLast?_cons_cons]

theorem moves_eq_pieceMoves {p : Path} (h : p.bytes.getLast? ≠ some slash) :
    p.moves = p.pieceMoves := by
  simp [moves, pieceMoves, h]

/-- What the kernel is asked to do by a path with a name behind it. -/
theorem moves_join (p : Path) {name : Name} (h : PlainName name) :
    (p.join ⟨name⟩).moves = p.pieceMoves ++ [.down name] := by
  have hlast : (p.join ⟨name⟩).bytes.getLast? ≠ some slash := by
    rw [join_getLast? p h]
    exact fun hs => h.no_slash (List.mem_of_getLast? hs)
  have hplain : ∀ n ∈ [name], PlainName n := by simpa using h
  rw [moves_eq_pieceMoves hlast]
  exact pieceMoves_joinNames hplain p

/-- What the kernel is asked to do by a path with names behind it. -/
theorem moves_joinNames (p : Path) {names : List Name} (h : ∀ n ∈ names, PlainName n)
    (hne : names ≠ []) : (p.joinNames names).moves = p.pieceMoves ++ names.map .down := by
  obtain ⟨init, last, rfl⟩ : ∃ init last, names = init ++ [last] :=
    ⟨names.dropLast, names.getLast hne, (List.dropLast_append_getLast hne).symm⟩
  have hinit : ∀ n ∈ init, PlainName n := fun n hn => h n (by simp [hn])
  rw [joinNames_concat, moves_join _ (h last (by simp)), pieceMoves_joinNames hinit]
  simp

/-! ## Bytes and components -/

theorem join_bytes (p : Path) {name : Name} (h : slash ∉ name) :
    (p.join ⟨name⟩).bytes = p.bytes ++ name ∨
      (p.join ⟨name⟩).bytes = p.bytes ++ slash :: name := by
  simp only [join, PlainName.not_absolute h, Bool.false_eq_true, if_false]
  split
  · exact .inl rfl
  · exact .inr rfl

theorem isAbsolute_join {p : Path} {name : Name} (hp : p.isAbsolute = true)
    (h : slash ∉ name) : (p.join ⟨name⟩).isAbsolute = true := by
  obtain ⟨bytes⟩ := p
  cases bytes with
  | nil => simp [isAbsolute] at hp
  | cons b rest =>
      rcases join_bytes ⟨b :: rest⟩ h with hb | hb <;>
        simpa [isAbsolute, hb] using hp

theorem isAbsolute_joinNames {p : Path} (hp : p.isAbsolute = true) {names : List Name}
    (h : ∀ n ∈ names, slash ∉ n) : (p.joinNames names).isAbsolute = true := by
  induction names generalizing p with
  | nil => exact hp
  | cons name names ih =>
      rw [joinNames_cons]
      exact ih (isAbsolute_join hp (h name (by simp))) fun n hn => h n (by simp [hn])

theorem isAbsolute_join_of_ne_nil {p : Path} {name : Name} (hne : p.bytes ≠ [])
    (h : slash ∉ name) : (p.join ⟨name⟩).isAbsolute = p.isAbsolute := by
  obtain ⟨bytes⟩ := p
  obtain ⟨b, rest, rfl⟩ := List.exists_cons_of_ne_nil hne
  rcases join_bytes ⟨b :: rest⟩ h with hb | hb <;> simp [isAbsolute, hb]

/-- A name behind a path leaves its first piece alone. -/
theorem head?_parts_join {p : Path} {name : Name} (hne : p.bytes ≠ []) (h : slash ∉ name) :
    (p.join ⟨name⟩).parts.head? = p.parts.head? := by
  have hhead : ∀ xs ys : List UInt8,
      (pieces slash (xs ++ slash :: ys)).head? = (pieces slash xs).head? := by
    intro xs ys
    rw [pieces_append_sep, List.head?_append_of_ne_nil _ (pieces_ne_nil slash xs)]
  simp only [join, PlainName.not_absolute h, Bool.false_eq_true, if_false]
  split
  · rename_i hend
    simp only [Bool.or_eq_true, List.isEmpty_iff, beq_iff_eq] at hend
    obtain ⟨init, hinit⟩ := List.getLast?_eq_some_iff.1 (hend.resolve_left hne)
    simp only [parts, hinit, List.append_assoc, List.singleton_append, hhead]
  · exact hhead _ _

theorem components_join {p : Path} {name : Name} (hne : p.bytes ≠ []) (h : PlainName name) :
    (p.join ⟨name⟩).components = p.components ++ [.normal name] := by
  simp only [components, isAbsolute_join_of_ne_nil hne h.no_slash,
    head?_parts_join hne h.no_slash]
  rw [filterMap_parts_join (by simp [Component.ofPiece?]) p h.no_slash, h.ofPiece?_component]
  split
  · rfl
  · split <;> rfl

/-- The components of a path with names behind it. -/
theorem components_joinNames_of_ne_nil {p : Path} (hne : p.bytes ≠ []) {names : List Name}
    (h : ∀ n ∈ names, PlainName n) :
    (p.joinNames names).components = p.components ++ names.map .normal := by
  induction names generalizing p with
  | nil => simp [joinNames_nil]
  | cons name names ih =>
      have hname := h name (by simp)
      have hne' : (p.join ⟨name⟩).bytes ≠ [] := by
        rcases join_bytes p hname.no_slash with hb | hb <;> simp [hb, hne]
      rw [joinNames_cons, ih hne' fun n hn => h n (by simp [hn]), components_join hne hname]
      simp

/-- The components of an absolute path with names behind it. -/
theorem components_joinNames {p : Path} (hp : p.isAbsolute = true) {names : List Name}
    (h : ∀ n ∈ names, PlainName n) :
    (p.joinNames names).components = p.components ++ names.map .normal := by
  refine components_joinNames_of_ne_nil (fun hnil => ?_) h
  rw [isAbsolute, hnil] at hp
  exact absurd hp (by decide)

theorem isAbsolute_ofNames {names : List Name} (h : ∀ n ∈ names, PlainName n) :
    (ofNames names).isAbsolute = true :=
  isAbsolute_joinNames rfl fun n hn => (h n hn).no_slash

theorem components_ofNames {names : List Name} (h : ∀ n ∈ names, PlainName n) :
    (ofNames names).components = .root :: names.map .normal :=
  components_joinNames rfl h

/-- The moves along the path of plain names go down by them. -/
theorem steps_ofNames {names : List Name} (h : ∀ n ∈ names, PlainName n) :
    (ofNames names).steps = names.map .down := by
  have hdown : (stepOf? ∘ Component.normal) = fun n => some (Step.down n) := rfl
  rw [steps, components_ofNames h, List.filterMap_cons]
  simp [stepOf?, List.filterMap_map, hdown]

theorem names_ofNames {names : List Name} (h : ∀ n ∈ names, PlainName n) :
    (ofNames names).names = names := by
  rw [Path.names, steps_ofNames h, List.filterMap_map]
  exact List.filterMap_some

theorem length_le_join (p : Path) {name : Name} (h : slash ∉ name) :
    p.bytes.length + name.length ≤ (p.join ⟨name⟩).bytes.length := by
  rcases join_bytes p h with hb | hb <;> simp [hb]

theorem length_join_le (p : Path) {name : Name} (h : slash ∉ name) :
    (p.join ⟨name⟩).bytes.length ≤ p.bytes.length + 1 + name.length := by
  rcases join_bytes p h with hb | hb <;> simp only [hb, List.length_append, List.length_cons] <;>
    omega

theorem nul_notMem_join {p : Path} {name : Name} (h : slash ∉ name) (hp : 0 ∉ p.bytes)
    (hname : 0 ∉ name) : 0 ∉ (p.join ⟨name⟩).bytes := by
  have hs : (0 : UInt8) ≠ slash := by decide
  rcases join_bytes p h with hb | hb <;> simp [hb, hp, hname, hs]

theorem nul_notMem_joinNames {p : Path} {names : List Name} (h : ∀ n ∈ names, slash ∉ n)
    (hp : 0 ∉ p.bytes) (hnames : ∀ n ∈ names, 0 ∉ n) : 0 ∉ (p.joinNames names).bytes := by
  induction names generalizing p with
  | nil => exact hp
  | cons name names ih =>
      rw [joinNames_cons]
      exact ih (fun n hn => h n (by simp [hn]))
        (nul_notMem_join (h name (by simp)) hp (hnames name (by simp)))
        fun n hn => hnames n (by simp [hn])

theorem mem_joinNames {p : Path} {names : List Name} (h : ∀ n ∈ names, slash ∉ n) {b : UInt8}
    (hb : b ∈ p.bytes) : b ∈ (p.joinNames names).bytes := by
  induction names generalizing p with
  | nil => exact hb
  | cons name names ih =>
      rw [joinNames_cons]
      refine ih (fun n hn => h n (by simp [hn])) ?_
      rcases join_bytes p (h name (by simp)) with hj | hj <;> simp [hj, hb]

theorem nul_notMem_of_joinNames {p : Path} {names : List Name} (h : ∀ n ∈ names, slash ∉ n)
    (hp : 0 ∉ (p.joinNames names).bytes) : ∀ n ∈ names, 0 ∉ n := by
  induction names generalizing p with
  | nil => simp
  | cons name names ih =>
      intro n hn
      rw [joinNames_cons] at hp
      rcases List.mem_cons.1 hn with rfl | hn
      · intro hzero
        refine hp (mem_joinNames (fun n hn => h n (by simp [hn])) ?_)
        rcases join_bytes p (h n (by simp)) with hb | hb <;> simp [hb, hzero]
      · exact ih (fun n hn => h n (by simp [hn])) hp n hn

end Path

end ContainerMounts
