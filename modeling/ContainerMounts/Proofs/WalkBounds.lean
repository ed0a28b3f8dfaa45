/-
ContainerMounts.Proofs.WalkBounds — a resolution takes boundedly many moves.

A link that is followed puts the moves of its text in front of those that
are left, so the moves that are left can grow in number, and a link such as
`a` with the text `a/a` makes them grow every time it is read. What falls
with every move is the number of moves left together with what the links
that may still be read can add to it.

`Takes` is a move of the walk as such, which knows of no limit on links, and
`Reaches` says what is reached by moves and links that are counted, where
`Comes` only says that it is reached. The resolver goes along until there is
no move to take, or until the next move would read a 41st link (`Halts`,
`Returns`).

Main statement: a resolution returns after as many moves as the target has
and a text per link that may be read, whatever the links are, and it
complains of too many links just where the walk as such would read one more
(`resolve_bounded`).
-/
import ContainerMounts.Proofs.Resolution

namespace ContainerMounts

/-- No symlink of the tree asks for more than so many moves. -/
def FileTree.LinksWithin (tree : FileTree) (most : Nat) : Prop :=
  ∀ place text, tree.at? place = some (.symlink text) → text.steps.length ≤ most

namespace FileTree

theorem linksWithin_symlink {text : Path} {most : Nat} (h : text.steps.length ≤ most) :
    LinksWithin (.symlink text) most := by
  intro place found hat
  cases place with
  | nil =>
      obtain rfl : text = found := by simpa using hat
      exact h
  | cons name rest => simp [Node.at?_cons, Node.child?] at hat

theorem linksWithin_dir {mode : Nat} {entries : List (Name × Node)} {most : Nat}
    (h : ∀ e ∈ entries, LinksWithin e.2 most) : LinksWithin (.dir mode entries) most := by
  intro place text hat
  cases place with
  | nil => simp at hat
  | cons name rest =>
      rw [Node.at?_cons, Node.child?_dir] at hat
      obtain ⟨child, hlookup, hrest⟩ := Option.bind_eq_some_iff.1 hat
      obtain ⟨before, after, rfl, -⟩ := List.lookup_eq_some_iff.1 hlookup
      exact h (name, child) (by simp) rest text hrest

end FileTree

namespace Rootfs

open FileTree

/-! ## Moves -/

/-- Where a walk is: the names it has come to, and the moves that are left. -/
structure Position where
  walked : Walked
  left : List Step

/-- A move, and the number of links that are read for it. -/
inductive Takes (rootfs : Rootfs) (tree : FileTree) (followLast : Bool) :
    Position → Nat → Position → Prop where
  | up {names : List Name} {missing : Option Nat} {rest : List Step} (inside : names ≠ []) :
      Takes rootfs tree followLast ⟨(names, missing), .up :: rest⟩ 0
        ⟨(names.dropLast, stillMissing missing names.dropLast), rest⟩
  /-- To a name behind a missing one. -/
  | behind {names : List Name} {i : Nat} {name : Name} {rest : List Step} :
      Takes rootfs tree followLast ⟨(names, some i), .down name :: rest⟩ 0
        ⟨(names ++ [name], some i), rest⟩
  | absent {names : List Name} {name : Name} {rest : List Step}
      (stat : tree.lstat ((rootfs.hostPath names).join ⟨name⟩) = .error (.os .noEntry)) :
      Takes rootfs tree followLast ⟨(names, none), .down name :: rest⟩ 0
        ⟨(names ++ [name], some names.length), rest⟩
  | link {names : List Name} {name : Name} {text : Path} {rest : List Step}
      (stat : tree.lstat ((rootfs.hostPath names).join ⟨name⟩) = .ok (.symlink text))
      (followed : followLast = true ∨ rest ≠ []) :
      Takes rootfs tree followLast ⟨(names, none), .down name :: rest⟩ 1
        ⟨(if text.isAbsolute then [] else names, none), text.steps ++ rest⟩
  /-- To a directory, or to anything in the last place. -/
  | file {names : List Name} {name : Name} {node : Node} {rest : List Step}
      (stat : tree.lstat ((rootfs.hostPath names).join ⟨name⟩) = .ok node)
      (kind : node.isDir = true ∨ rest = [] ∧ (followLast = true → node.isSymlink = false)) :
      Takes rootfs tree followLast ⟨(names, none), .down name :: rest⟩ 0
        ⟨(names ++ [name], none), rest⟩

/-- Why a move that is left cannot be taken. -/
inductive Stops (rootfs : Rootfs) (tree : FileTree) (target : Path) : Position → Error → Prop where
  | climbs {missing : Option Nat} {rest : List Step} :
      Stops rootfs tree target ⟨([], missing), .up :: rest⟩
        (escape target "symlink climbs above the container root")
  | refused {names : List Name} {name : Name} {fault : Fault} {rest : List Step}
      (stat : tree.lstat ((rootfs.hostPath names).join ⟨name⟩) = .error fault)
      (other : fault ≠ .os .noEntry) :
      Stops rootfs tree target ⟨(names, none), .down name :: rest⟩ (.io fault)
  | blocked {names : List Name} {name : Name} {node : Node} {rest : List Step}
      (stat : tree.lstat ((rootfs.hostPath names).join ⟨name⟩) = .ok node)
      (leaf : node.isDir = false) (noLink : node.isSymlink = false) (more : rest ≠ []) :
      Stops rootfs tree target ⟨(names, none), .down name :: rest⟩ (.ofErrno .notDirectory)

variable {rootfs : Rootfs} {tree : FileTree} {target : Path} {followLast : Bool}
  {jump : List Name → List Step → Except Error Walked} {p q q' : Position}
  {taken read read' most : Nat} {e e' : Error}

theorem Takes.unique (h : Takes rootfs tree followLast p read q)
    (h' : Takes rootfs tree followLast p read' q') : read = read' ∧ q = q' := by
  cases h <;> cases h' <;> grind [Node.isSymlink, Node.isDir]

theorem Stops.unique (h : Stops rootfs tree target p e) (h' : Stops rootfs tree target p e') :
    e = e' := by
  cases h <;> cases h' <;> grind

theorem Stops.not_takes (h : Stops rootfs tree target p e) :
    ¬ Takes rootfs tree followLast p read q := by
  intro htakes
  cases h <;> cases htakes <;> grind [Node.isSymlink, Node.isDir]

/-- Where moves are left, one can be taken or there is a reason why not. -/
theorem Position.goes_or_stops (rootfs : Rootfs) (tree : FileTree) (target : Path)
    (followLast : Bool) (p : Position) :
    p.left = [] ∨ (∃ read q, Takes rootfs tree followLast p read q)
      ∨ ∃ e, Stops rootfs tree target p e := by
  obtain ⟨⟨names, missing⟩, left⟩ := p
  cases left with
  | nil => exact .inl rfl
  | cons step rest =>
      right
      cases step with
      | up =>
          cases names with
          | nil => exact .inr ⟨_, .climbs⟩
          | cons first names => exact .inl ⟨_, _, .up (List.cons_ne_nil _ _)⟩
      | down name =>
          cases missing with
          | some i => exact .inl ⟨_, _, .behind⟩
          | none =>
              cases hstat : tree.lstat ((rootfs.hostPath names).join ⟨name⟩) with
              | error fault =>
                  by_cases hfault : fault = .os .noEntry
                  · exact .inl ⟨_, _, .absent (hfault ▸ hstat)⟩
                  · exact .inr ⟨_, .refused hstat hfault⟩
              | ok node =>
                  cases hdir : node.isDir with
                  | true => exact .inl ⟨_, _, .file hstat (.inl hdir)⟩
                  | false =>
                      cases hlink : node.isSymlink with
                      | true =>
                          obtain ⟨text, rfl⟩ := Node.eq_symlink_of_isSymlink hlink
                          by_cases hfollow : followLast = true ∨ rest ≠ []
                          · exact .inl ⟨_, _, .link hstat hfollow⟩
                          · obtain ⟨hkept, hlast⟩ := not_or.1 hfollow
                            exact .inl ⟨_, _, .file hstat
                              (.inr ⟨not_not.1 hlast, fun h => absurd h hkept⟩)⟩
                      | false =>
                          by_cases hlast : rest = []
                          · exact .inl ⟨_, _, .file hstat (.inr ⟨hlast, fun _ => hlink⟩)⟩
                          · exact .inr ⟨_, .blocked hstat hdir hlink hlast⟩

/-- The moves left grow by the text of a link at most. -/
theorem Takes.length_left (hmost : tree.LinksWithin most)
    (h : Takes rootfs tree followLast p read q) :
    q.left.length + 1 ≤ p.left.length + read * most := by
  cases h with
  | @link names name text rest stat followed =>
      obtain ⟨place, -, hat⟩ := findNode_eq_ok.1 stat
      have htext := hmost place text hat
      simp only [List.length_append, List.length_cons, Nat.one_mul]
      omega
  | _ => simp

theorem Takes.read_le (h : Takes rootfs tree followLast p read q) : read ≤ 1 := by
  cases h <;> decide

/-! ## Counting -/

/-- What the walk of the target reaches by so many moves, with so many links
read. -/
inductive Reaches (rootfs : Rootfs) (tree : FileTree) (target : Path) (followLast : Bool) :
    (taken read : Nat) → Position → Prop where
  | start : Reaches rootfs tree target followLast 0 0 ⟨([], none), target.steps⟩
  | move {taken read more : Nat} {p q : Position}
      (h : Reaches rootfs tree target followLast taken read p)
      (htakes : Takes rootfs tree followLast p more q) :
      Reaches rootfs tree target followLast (taken + 1) (read + more) q

namespace Reaches

variable {taken' : Nat}

/-- There is one way only. -/
theorem unique (h : Reaches rootfs tree target followLast taken read p)
    (h' : Reaches rootfs tree target followLast taken read' q) : read = read' ∧ p = q := by
  induction h generalizing read' q with
  | start =>
      cases h' with
      | start => exact ⟨rfl, rfl⟩
  | move h htakes ih =>
      cases h' with
      | move h' htakes' =>
          obtain ⟨rfl, rfl⟩ := ih h'
          obtain ⟨rfl, rfl⟩ := htakes.unique htakes'
          exact ⟨rfl, rfl⟩

/-- **The measure of a walk.** The moves taken and the moves left are at most
those of the target and of a text per link read. -/
theorem taken_add_left (hmost : tree.LinksWithin most)
    (h : Reaches rootfs tree target followLast taken read p) :
    taken + p.left.length ≤ target.steps.length + read * most := by
  induction h with
  | start => simp
  | @move taken read more p q h htakes ih =>
      have hlength := htakes.length_left hmost
      rw [Nat.add_mul]
      omega

/-- Who gets further goes on from here. -/
theorem passes (h : Reaches rootfs tree target followLast taken read p)
    (h' : Reaches rootfs tree target followLast taken' read' q') (hlt : taken < taken') :
    ∃ more q, Takes rootfs tree followLast p more q ∧ read + more ≤ read' := by
  induction h' with
  | start => omega
  | @move taken₁ read₁ more p₁ q h₁ htakes ih =>
      rcases Nat.lt_succ_iff_lt_or_eq.1 hlt with hearlier | rfl
      · obtain ⟨more', q', hmove, hread⟩ := ih hearlier
        exact ⟨more', q', hmove, by omega⟩
      · obtain ⟨rfl, rfl⟩ := h.unique h₁
        exact ⟨more, q, htakes, Nat.le_refl _⟩

/-- A link that was read was met before. -/
theorem met_link (h : Reaches rootfs tree target followLast taken (read + 1) q') :
    ∃ taken' p q, Reaches rootfs tree target followLast taken' read p
      ∧ Takes rootfs tree followLast p 1 q := by
  generalize hread : read + 1 = read₁ at h
  induction h with
  | start => omega
  | @move taken₀ read₀ more p q h htakes ih =>
      obtain hmore | hmore : more = 0 ∨ more = 1 := by
        have := htakes.read_le
        omega
      · exact ih (by omega)
      · obtain rfl : read₀ = read := by omega
        exact ⟨taken₀, p, q, h, hmore ▸ htakes⟩

end Reaches

/-! ## The end of a walk -/

/-- The answer where the limit on links is reached. -/
def tooManyLinks (target : Path) : Error := escape target "too many levels of symbolic links"

/-- What a resolution returns from a position, having read so many links, and
whether a last move was begun for it. -/
inductive Halts (rootfs : Rootfs) (tree : FileTree) (target : Path) (followLast : Bool) :
    (read : Nat) → Position → (begun : Nat) → Except Error ResolvedPath → Prop where
  | done {read : Nat} {walked : Walked} :
      Halts rootfs tree target followLast read ⟨walked, []⟩ 0 (.ok ⟨rootfs, walked.1, walked.2⟩)
  | stopped {read : Nat} {p : Position} {e : Error} (h : Stops rootfs tree target p e) :
      Halts rootfs tree target followLast read p 1 (.error e)
  /-- At one link more than may be read. -/
  | exhausted {p q : Position} (h : Takes rootfs tree followLast p 1 q) :
      Halts rootfs tree target followLast 40 p 1 (.error (tooManyLinks target))

/-- The resolver returns this answer, after so many moves, of which a last one
may only have been begun, and with so many links read. -/
inductive Returns (rootfs : Rootfs) (tree : FileTree) (target : Path) (followLast : Bool) :
    (taken read : Nat) → Except Error ResolvedPath → Prop where
  | mk {taken read begun : Nat} {p : Position} {answer : Except Error ResolvedPath}
      (h : Reaches rootfs tree target followLast taken read p) (within : read ≤ 40)
      (halts : Halts rootfs tree target followLast read p begun answer) :
      Returns rootfs tree target followLast (taken + begun) read answer

variable {answer answer' : Except Error ResolvedPath} {begun begun' : Nat}

theorem Stops.left_ne_nil (h : Stops rootfs tree target p e) : p.left ≠ [] := by
  cases h <;> simp

theorem Takes.left_ne_nil (h : Takes rootfs tree followLast p read q) : p.left ≠ [] := by
  cases h <;> simp

/-- Only a link too many is a move that can be taken and is not. -/
theorem Halts.exceeds (h : Halts rootfs tree target followLast read p begun answer) {more : Nat}
    (htakes : Takes rootfs tree followLast p more q) : 40 < read + more := by
  cases h with
  | done => exact absurd rfl htakes.left_ne_nil
  | stopped h => exact absurd htakes h.not_takes
  | exhausted h =>
      obtain ⟨rfl, -⟩ := h.unique htakes
      omega

theorem Halts.begun_le (h : Halts rootfs tree target followLast read p begun answer) :
    begun ≤ p.left.length := by
  cases h with
  | done => exact Nat.zero_le _
  | stopped h => exact List.length_pos_iff.2 h.left_ne_nil
  | exhausted h => exact List.length_pos_iff.2 h.left_ne_nil

theorem Halts.unique (h : Halts rootfs tree target followLast read p begun answer)
    (h' : Halts rootfs tree target followLast read p begun' answer') :
    begun = begun' ∧ answer = answer' := by
  cases h with
  | done =>
      cases h' with
      | done => exact ⟨rfl, rfl⟩
      | stopped h' => exact absurd rfl h'.left_ne_nil
      | exhausted h' => exact absurd rfl h'.left_ne_nil
  | stopped h =>
      cases h' with
      | done => exact absurd rfl h.left_ne_nil
      | stopped h' => exact ⟨rfl, by rw [h.unique h']⟩
      | exhausted h' => exact absurd h' h.not_takes
  | exhausted h =>
      cases h' with
      | done => exact absurd rfl h.left_ne_nil
      | stopped h' => exact absurd h h'.not_takes
      | exhausted h' => exact ⟨rfl, rfl⟩

theorem Returns.unique {taken' : Nat} (h : Returns rootfs tree target followLast taken read answer)
    (h' : Returns rootfs tree target followLast taken' read' answer') :
    taken = taken' ∧ read = read' ∧ answer = answer' := by
  obtain ⟨h, hwithin, hhalts⟩ := h
  obtain ⟨h', hwithin', hhalts'⟩ := h'
  rename_i t begun p t' begun' p'
  rcases Nat.lt_trichotomy t t' with hlt | rfl | hlt
  · obtain ⟨more, q, htakes, hread⟩ := h.passes h' hlt
    have := hhalts.exceeds htakes
    omega
  · obtain ⟨rfl, rfl⟩ := h.unique h'
    obtain ⟨rfl, rfl⟩ := hhalts.unique hhalts'
    exact ⟨rfl, rfl, rfl⟩
  · obtain ⟨more, q, htakes, hread⟩ := h'.passes h hlt
    have := hhalts'.exceeds htakes
    omega

/-- How long a walk can be. -/
theorem Returns.taken_le (hmost : tree.LinksWithin most)
    (h : Returns rootfs tree target followLast taken read answer) :
    taken ≤ target.steps.length + 40 * most := by
  obtain ⟨h, hwithin, hhalts⟩ := h
  have hmeasure := h.taken_add_left hmost
  have hbegun := hhalts.begun_le
  have hlinks := Nat.mul_le_mul_right most hwithin
  omega

theorem Returns.read_le (h : Returns rootfs tree target followLast taken read answer) :
    read ≤ 40 := by
  obtain ⟨-, hwithin, -⟩ := h
  exact hwithin

/-! ## The resolver -/

/-- A move that reads no link is taken. -/
theorem walkVia_takes (h : Takes rootfs tree followLast p 0 q) :
    rootfs.walkVia tree target followLast jump p.walked p.left
      = rootfs.walkVia tree target followLast jump q.walked q.left := by
  cases h with
  | up inside => exact walkVia_up inside
  | behind => rw [walkVia]
  | absent stat => exact walkVia_down_missing stat
  | @file names name node rest stat kind =>
      cases hlink : node.isSymlink with
      | true =>
          obtain ⟨text, rfl⟩ := Node.eq_symlink_of_isSymlink hlink
          obtain hdir | ⟨rfl, hkept⟩ := kind
          · simp [Node.isDir] at hdir
          · have hkept : followLast = false := by simpa [Node.isSymlink] using hkept
            rw [walkVia_down_symlink stat, hkept, if_neg (by simp)]
      | false =>
          rw [walkVia_down_plain stat hlink, if_pos]
          rcases kind with hdir | ⟨rfl, -⟩
          · simp [hdir]
          · simp

/-- A link that is to be read is left to `jump`. -/
theorem walkVia_link (target : Path) (jump : List Name → List Step → Except Error Walked)
    (h : Takes rootfs tree followLast p 1 q) :
    q.walked.2 = none ∧ rootfs.walkVia tree target followLast jump p.walked p.left
      = jump q.walked.1 q.left := by
  cases h with
  | link stat followed =>
      refine ⟨rfl, ?_⟩
      rw [walkVia_down_symlink stat, if_pos (by simpa using followed)]

theorem walkVia_stops (h : Stops rootfs tree target p e) :
    rootfs.walkVia tree target followLast jump p.walked p.left = .error e := by
  cases h with
  | climbs => rw [walkVia, if_pos rfl]
  | refused stat other => exact walkVia_down_fault stat other
  | blocked stat leaf noLink more =>
      rw [walkVia_down_plain stat noLink, if_neg (by simp [leaf, more])]

/-- A walk as the answer of a resolution. -/
def answered (rootfs : Rootfs) (result : Except Error Walked) : Except Error ResolvedPath :=
  result.map fun walked => ⟨rootfs, walked.1, walked.2⟩

theorem resolveWith_eq_answered (rootfs : Rootfs) (tree : FileTree) (target : Path)
    (followLast : Bool) :
    rootfs.resolveWith tree target followLast
      = rootfs.answered (rootfs.walk tree target followLast 40 [] target.steps) := by
  unfold resolveWith answered maxLinks
  cases rootfs.walk tree target followLast 40 [] target.steps <;> rfl

theorem Takes.left_eq {walked : Walked} {step : Step} {rest : List Step}
    (h : Takes rootfs tree followLast ⟨walked, step :: rest⟩ 0 q) : q.left = rest := by
  cases h <;> rfl

/-- What follows a link is `jump`'s business; the rest of the walk gets shorter
with every move. -/
theorem walkVia_returns (hwithin : read ≤ 40)
    (hjump : ∀ taken p names left, Reaches rootfs tree target followLast taken read p →
      Takes rootfs tree followLast p 1 ⟨(names, none), left⟩ →
      ∃ t r, Returns rootfs tree target followLast t r (rootfs.answered (jump names left)))
    (h : Reaches rootfs tree target followLast taken read p) :
    ∃ t r, Returns rootfs tree target followLast t r
      (rootfs.answered (rootfs.walkVia tree target followLast jump p.walked p.left)) := by
  obtain ⟨walked, left⟩ := p
  induction left generalizing taken walked with
  | nil =>
      refine ⟨taken, read, ?_⟩
      rw [walkVia]
      exact .mk h hwithin .done
  | cons step rest ih =>
      obtain hnone | ⟨more, q, htakes⟩ | ⟨e, hstops⟩ :=
        Position.goes_or_stops rootfs tree target followLast ⟨walked, step :: rest⟩
      · simp at hnone
      · obtain rfl | rfl : more = 0 ∨ more = 1 := by
          have := htakes.read_le
          omega
        · obtain ⟨walked', left⟩ := q
          obtain rfl : left = rest := htakes.left_eq
          rw [walkVia_takes htakes]
          exact ih walked' (h.move htakes)
        · obtain ⟨⟨names, missing⟩, left⟩ := q
          obtain ⟨hmissing, hvia⟩ := walkVia_link target jump htakes
          obtain rfl : missing = none := hmissing
          rw [hvia]
          exact hjump _ _ _ _ h htakes
      · refine ⟨taken + 1, read, ?_⟩
        rw [walkVia_stops hstops]
        exact .mk h hwithin (.stopped hstops)

theorem walk_returns {links : Nat} {names : List Name} {steps : List Step}
    (hlinks : read + links = 40)
    (h : Reaches rootfs tree target followLast taken read ⟨(names, none), steps⟩) :
    ∃ t r, Returns rootfs tree target followLast t r
      (rootfs.answered (rootfs.walk tree target followLast links names steps)) := by
  induction links generalizing taken read names steps with
  | zero =>
      refine walkVia_returns (Nat.le.intro hlinks) (fun taken p names left hp htakes => ?_) h
      obtain rfl : read = 40 := hlinks
      exact ⟨taken + 1, 40, .mk hp (Nat.le_refl _) (.exhausted htakes)⟩
  | succ links ih =>
      refine walkVia_returns (Nat.le.intro hlinks) (fun taken p names left hp htakes => ?_) h
      exact ih (by omega) (hp.move htakes)

/-- The resolver returns what it returns, after at most `most` moves. -/
structure Bounded (rootfs : Rootfs) (tree : FileTree) (target : Path) (followLast : Bool)
    (most : Nat) (answer : Except Error ResolvedPath) : Prop where
  /-- There is one number of moves and one of links read, and both are bounded. -/
  returns : ∃ taken read, taken ≤ most ∧ read ≤ 40
    ∧ ∀ t r a, Returns rootfs tree target followLast t r a ↔ t = taken ∧ r = read ∧ a = answer
  /-- Too many links are those that the walk as such would read beyond the
  limit. -/
  exhausted : answer = .error (tooManyLinks target)
    ↔ ∃ taken p, Reaches rootfs tree target followLast taken 41 p

theorem Stops.ne_tooManyLinks (h : Stops rootfs tree target p e) : e ≠ tooManyLinks target := by
  cases h <;> simp [tooManyLinks, escape, Error.ofErrno]

/-- The limit on links is reached just where one more would be read. -/
theorem Returns.tooManyLinks_iff (h : Returns rootfs tree target followLast taken read answer) :
    answer = .error (tooManyLinks target)
      ↔ ∃ t p, Reaches rootfs tree target followLast t 41 p := by
  constructor
  · rintro rfl
    obtain ⟨hreaches, -, hhalts⟩ := h
    cases hhalts with
    | stopped hstops => exact absurd rfl hstops.ne_tooManyLinks
    | exhausted htakes => exact ⟨_, _, hreaches.move htakes⟩
  · rintro ⟨t, p, hreaches⟩
    obtain ⟨t', p, q, hmet, htakes⟩ := hreaches.met_link
    exact (h.unique (.mk hmet (Nat.le_refl _) (.exhausted htakes))).2.2

theorem resolveWith_bounded (rootfs : Rootfs) (tree : FileTree) (target : Path)
    (followLast : Bool) (hmost : tree.LinksWithin most) :
    Bounded rootfs tree target followLast (target.steps.length + 40 * most)
      (rootfs.resolveWith tree target followLast) := by
  rw [resolveWith_eq_answered]
  have hstart : Reaches rootfs tree target followLast 0 0 ⟨([], none), target.steps⟩ := .start
  obtain ⟨taken, read, hreturns⟩ := walk_returns (Nat.zero_add 40) hstart
  refine ⟨⟨taken, read, hreturns.taken_le hmost, hreturns.read_le, fun t r a => ⟨fun h => ?_, ?_⟩⟩,
    hreturns.tooManyLinks_iff⟩
  · exact h.unique hreturns
  · rintro ⟨rfl, rfl, rfl⟩
    exact hreturns

/-- **Every resolution ends, within a bound.** Where no symlink of the tree asks
for more than `most` moves, cycles and links that only grow included, a
resolution of the target returns after at most as many moves as the target
has and `most` for each link that it may read. It reads no more links than
that, and it says that they are too many just where one more would have to
be read. -/
theorem resolve_bounded (rootfs : Rootfs) (tree : FileTree) (target : Path) {most : Nat}
    (hmost : tree.LinksWithin most) :
    Bounded rootfs tree target true (target.steps.length + 40 * most)
        (rootfs.resolve tree target)
      ∧ Bounded rootfs tree target false (target.steps.length + 40 * most)
        (rootfs.resolveParent tree target) :=
  ⟨resolveWith_bounded rootfs tree target true hmost,
    resolveWith_bounded rootfs tree target false hmost⟩

/-- A link `a` that leads to `a/a`. -/
def growingLink : FileTree := .dir 0o755 [([0x61], .symlink ⟨[0x61, slash, 0x61]⟩)]

theorem linksWithin_growingLink : growingLink.LinksWithin 2 := by
  refine linksWithin_dir ?_
  rw [List.forall_mem_singleton]
  exact linksWithin_symlink (by decide)

/-- Both ways to resolve it end, one of them at the limit. -/
theorem resolve_bounded_growingLink :
    growingLink.LinksWithin 2
      ∧ resolve ⟨Path.root⟩ growingLink ⟨[slash, 0x61]⟩
        = .error (tooManyLinks ⟨[slash, 0x61]⟩)
      ∧ Bounded ⟨Path.root⟩ growingLink ⟨[slash, 0x61]⟩ true
          ((Path.mk [slash, 0x61]).steps.length + 40 * 2)
          (resolve ⟨Path.root⟩ growingLink ⟨[slash, 0x61]⟩)
      ∧ Bounded ⟨Path.root⟩ growingLink ⟨[slash, 0x61]⟩ false
          ((Path.mk [slash, 0x61]).steps.length + 40 * 2)
          (resolveParent ⟨Path.root⟩ growingLink ⟨[slash, 0x61]⟩) :=
  ⟨linksWithin_growingLink, by decide +kernel, resolve_bounded _ _ _ linksWithin_growingLink⟩

end Rootfs

end ContainerMounts
