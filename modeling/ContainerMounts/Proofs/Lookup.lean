/-
ContainerMounts.Proofs.Lookup — the kernel's walk, move by move.

The steps of a walk that got to its end are taken apart once, in
`walkVia_cons_ok`, and what each move does is said once for each
(`walkVia_stay` and its neighbours). From them:

* walks follow one another (`walk_append`), and one down through
  directories has no choice (`walk_through`);
* a walk ends at a file that is no symlink, under names that a directory
  can hold (`walk_sound`);
* a walk that gets to its end still does when no file changes
  (`walk_keeps`).

`openDir_eq_ok` says what it takes to open a directory.
-/
import ContainerMounts.Proofs.Growth

namespace ContainerMounts.FileTree

variable {tree : FileTree} {rules : WalkRules}
  {jump : List Name → List Move → Except Errno (List Name)} {here place mid : List Name}
  {name : Name} {rest xs ys : List Move}

/-! ## One move -/

theorem tooFar_eq_false (h : rules.reach = none) (move : Move) :
    rules.tooFar here move = false := by
  simp [WalkRules.tooFar, h]

/-- What a walk that got to its end did first. -/
theorem walkVia_cons_ok {move : Move}
    (h : walkVia tree rules jump here (move :: rest) = .ok place) :
    rules.tooFar here move = false ∧ tree.IsDirAt here ∧
      ((move = .stay ∧ walkVia tree rules jump here rest = .ok place)
        ∨ (move = .up ∧ walkVia tree rules jump here.dropLast rest = .ok place)
        ∨ ∃ name node, move = .down name ∧ name.length ≤ nameLimit
            ∧ tree.at? (here ++ [name]) = some node
            ∧ ((∃ text, node = .symlink text
                  ∧ (rest.isEmpty && !rules.followLast) = false
                  ∧ jump (if text.isAbsolute then [] else here) (text.moves ++ rest) = .ok place)
                ∨ ((rest.isEmpty && !rules.followLast) = true ∧ node.isSymlink = true
                  ∧ place = here ++ [name])
                ∨ (node.isSymlink = false
                  ∧ walkVia tree rules jump (here ++ [name]) rest = .ok place))) := by
  unfold walkVia at h
  split at h
  · simp at h
  · rename_i hfar
    refine ⟨by simpa using hfar, ?_⟩
    cases hat : tree.at? here with
    | none => simp [hat] at h
    | some node =>
        simp only [hat] at h
        split at h
        · rename_i hdir
          have hhere : tree.IsDirAt here := by
            cases node with
            | dir mode entries => exact ⟨mode, entries, hat⟩
            | _ => simp [Node.isDir] at hdir
          refine ⟨hhere, ?_⟩
          cases move with
          | stay => exact .inl ⟨rfl, h⟩
          | up => exact .inr (.inl ⟨rfl, h⟩)
          | down name =>
              refine .inr (.inr ?_)
              simp only at h
              split at h
              · simp at h
              · rename_i hlen
                rw [← at?_concat hat] at h
                cases hchild : tree.at? (here ++ [name]) with
                | none => simp [hchild] at h
                | some child =>
                    refine ⟨name, child, rfl, by omega, hchild, ?_⟩
                    rw [hchild] at h
                    cases child with
                    | symlink text =>
                        simp only at h
                        split at h
                        · rename_i hlast
                          refine .inr (.inl ⟨hlast, rfl, ?_⟩)
                          simpa using h.symm
                        · rename_i hlast
                          exact .inl ⟨text, rfl, by simpa using hlast, h⟩
                    | _ => exact .inr (.inr ⟨rfl, h⟩)
        · simp at h

theorem walkVia_stay (hdir : tree.IsDirAt here) (hfar : rules.tooFar here .stay = false) :
    walkVia tree rules jump here (.stay :: rest) = walkVia tree rules jump here rest := by
  obtain ⟨mode, entries, hat⟩ := hdir
  rw [walkVia]
  simp [hfar, hat, Node.isDir]

theorem walkVia_up (hdir : tree.IsDirAt here) (hfar : rules.tooFar here .up = false) :
    walkVia tree rules jump here (.up :: rest) = walkVia tree rules jump here.dropLast rest := by
  obtain ⟨mode, entries, hat⟩ := hdir
  rw [walkVia]
  simp [hfar, hat, Node.isDir]

theorem walkVia_down_long (hdir : tree.IsDirAt here) (hfar : rules.tooFar here (.down name) = false)
    (hlen : nameLimit < name.length) :
    walkVia tree rules jump here (.down name :: rest) = .error .nameTooLong := by
  obtain ⟨mode, entries, hat⟩ := hdir
  rw [walkVia]
  simp [hfar, hat, Node.isDir, hlen]

theorem walkVia_down_missing (hdir : tree.IsDirAt here)
    (hfar : rules.tooFar here (.down name) = false) (hlen : name.length ≤ nameLimit)
    (hchild : tree.at? (here ++ [name]) = none) :
    walkVia tree rules jump here (.down name :: rest) = .error .noEntry := by
  obtain ⟨mode, entries, hat⟩ := hdir
  rw [at?_concat hat] at hchild
  rw [walkVia]
  simp [hfar, hat, Node.isDir, hchild, Nat.not_lt.2 hlen]

theorem walkVia_down_symlink {text : Path} (hdir : tree.IsDirAt here)
    (hfar : rules.tooFar here (.down name) = false) (hlen : name.length ≤ nameLimit)
    (hchild : tree.at? (here ++ [name]) = some (.symlink text)) :
    walkVia tree rules jump here (.down name :: rest)
      = if rest.isEmpty && !rules.followLast then .ok (here ++ [name])
        else jump (if text.isAbsolute then [] else here) (text.moves ++ rest) := by
  obtain ⟨mode, entries, hat⟩ := hdir
  rw [at?_concat hat] at hchild
  rw [walkVia]
  simp [hfar, hat, Node.isDir, hchild, Nat.not_lt.2 hlen]

theorem walkVia_down_plain {node : Node} (hdir : tree.IsDirAt here)
    (hfar : rules.tooFar here (.down name) = false) (hlen : name.length ≤ nameLimit)
    (hchild : tree.at? (here ++ [name]) = some node) (hnode : node.isSymlink = false) :
    walkVia tree rules jump here (.down name :: rest)
      = walkVia tree rules jump (here ++ [name]) rest := by
  obtain ⟨mode, entries, hat⟩ := hdir
  rw [at?_concat hat] at hchild
  rw [walkVia]
  cases node <;> simp_all [Node.isDir, Node.isSymlink, Nat.not_lt.2 hlen]

@[simp] theorem tooFar_stay : rules.tooFar here .stay = false := by
  cases hreach : rules.reach <;> simp [WalkRules.tooFar, hreach]

@[simp] theorem tooFar_up : rules.tooFar here .up = false := by
  cases hreach : rules.reach <;> simp [WalkRules.tooFar, hreach]

/-- Moves that only stay in a directory change nothing for what comes after. -/
theorem walkVia_stays (hdir : tree.IsDirAt here) (hxs : ∀ move ∈ xs, move = .stay) :
    walkVia tree rules jump here (xs ++ ys) = walkVia tree rules jump here ys := by
  induction xs with
  | nil => rfl
  | cons move rest ih =>
      obtain rfl := hxs move (by simp)
      rw [List.cons_append, walkVia_stay hdir tooFar_stay]
      exact ih fun move hmove => hxs move (by simp [hmove])

theorem walk_stays {links : Nat} (hdir : tree.IsDirAt here) (hxs : ∀ move ∈ xs, move = .stay) :
    walk tree rules links here (xs ++ ys) = walk tree rules links here ys := by
  cases links <;> exact walkVia_stays hdir hxs

/-! ## Walks one after the other -/

/-- A walk goes on from where its first part ends. The first part follows
all its links, since moves come after it. -/
theorem walkVia_append {jump' : List Name → List Move → Except Errno (List Name)}
    {result : Except Errno (List Name)} (hreach : rules.reach = none) (hne : ys ≠ [])
    (hjump : ∀ from' moves, jump from' moves = .ok mid → jump' from' (moves ++ ys) = result)
    (hend : walkVia tree rules jump' mid ys = result)
    (h : walkVia tree { followLast := true } jump here xs = .ok mid) :
    walkVia tree rules jump' here (xs ++ ys) = result := by
  induction xs generalizing here with
  | nil =>
      obtain rfl : here = mid := by simpa [walkVia] using h
      exact hend
  | cons move rest ih =>
      have hfar : ∀ m, rules.tooFar here m = false := tooFar_eq_false hreach
      obtain ⟨-, hdir, hstay | hup | hdown⟩ := walkVia_cons_ok h
      · obtain ⟨rfl, hrest⟩ := hstay
        rw [List.cons_append, walkVia_stay hdir (hfar _)]
        exact ih hrest
      · obtain ⟨rfl, hrest⟩ := hup
        rw [List.cons_append, walkVia_up hdir (hfar _)]
        exact ih hrest
      · obtain ⟨name, node, rfl, hlen, hchild, hlink | hlast | hplain⟩ := hdown
        · obtain ⟨text, rfl, -, hjumped⟩ := hlink
          rw [List.cons_append, walkVia_down_symlink hdir (hfar _) hlen hchild]
          have hempty : (rest ++ ys).isEmpty = false := by simp [hne]
          rw [hempty, Bool.false_and, if_neg (by simp), ← List.append_assoc]
          exact hjump _ _ hjumped
        · simp at hlast
        · obtain ⟨hnode, hrest⟩ := hplain
          rw [List.cons_append, walkVia_down_plain hdir (hfar _) hlen hchild hnode]
          exact ih hrest

theorem walk_append {links : Nat} {result : Except Errno (List Name)}
    (hreach : rules.reach = none) (hne : ys ≠ [])
    (hend : ∀ l, walk tree rules l mid ys = result)
    (h : walk tree { followLast := true } links here xs = .ok mid) :
    walk tree rules links here (xs ++ ys) = result := by
  induction links generalizing here xs with
  | zero =>
      exact walkVia_append hreach hne (fun _ _ hj => by simp at hj) (hend 0) h
  | succ links ih =>
      exact walkVia_append hreach hne (fun _ _ hj => ih hj) (hend (links + 1)) h

/-- A walk that got to its end came to a directory before its last part. -/
theorem walkVia_append_ok {jump' : List Name → List Move → Except Errno (List Name)}
    (hne : ys ≠ [])
    (hjump : ∀ from' moves, jump from' (moves ++ ys) = .ok place →
      ∃ mid, jump' from' moves = .ok mid ∧ tree.IsDirAt mid)
    (h : walkVia tree rules jump here (xs ++ ys) = .ok place) :
    ∃ mid, walkVia tree { followLast := true } jump' here xs = .ok mid ∧ tree.IsDirAt mid := by
  induction xs generalizing here with
  | nil =>
      obtain ⟨move, rest, rfl⟩ := List.exists_cons_of_ne_nil hne
      exact ⟨here, by rw [walkVia], (walkVia_cons_ok h).2.1⟩
  | cons move rest ih =>
      have hfar : ∀ m, WalkRules.tooFar { followLast := true } here m = false :=
        tooFar_eq_false rfl
      obtain ⟨-, hdir, hstay | hup | hdown⟩ := walkVia_cons_ok h
      · obtain ⟨rfl, hrest⟩ := hstay
        rw [walkVia_stay hdir (hfar _)]
        exact ih hrest
      · obtain ⟨rfl, hrest⟩ := hup
        rw [walkVia_up hdir (hfar _)]
        exact ih hrest
      · obtain ⟨name, node, rfl, hlen, hchild, hlink | hlast | hplain⟩ := hdown
        · obtain ⟨text, rfl, -, hjumped⟩ := hlink
          rw [walkVia_down_symlink hdir (hfar _) hlen hchild]
          simp only [Bool.not_true, Bool.and_false, Bool.false_eq_true, if_false]
          exact hjump _ _ (by rwa [List.append_assoc])
        · simp [hne] at hlast
        · obtain ⟨hnode, hrest⟩ := hplain
          rw [walkVia_down_plain hdir (hfar _) hlen hchild hnode]
          exact ih hrest

theorem walk_append_ok {links : Nat} (hne : ys ≠ [])
    (h : walk tree rules links here (xs ++ ys) = .ok place) :
    ∃ mid, walk tree { followLast := true } links here xs = .ok mid ∧ tree.IsDirAt mid := by
  induction links generalizing here xs with
  | zero => exact walkVia_append_ok hne (fun _ _ hj => by simp at hj) h
  | succ links ih => exact walkVia_append_ok hne (fun _ _ hj => ih hj) h

/-- The request to stay at the end of a walk adds nothing to where it ends. -/
theorem walkVia_concat_stay {jump' : List Name → List Move → Except Errno (List Name)}
    (hreach : rules.reach = none) (hfollow : rules.followLast = true)
    (hjump : ∀ from' moves, jump from' (moves ++ [.stay]) = .ok place →
      jump' from' moves = .ok place)
    (h : walkVia tree rules jump here (xs ++ [.stay]) = .ok place) :
    walkVia tree rules jump' here xs = .ok place := by
  induction xs generalizing here with
  | nil =>
      obtain ⟨-, -, hstay | hup | hdown⟩ := walkVia_cons_ok h
      · simpa [walkVia] using hstay.2
      · simp at hup
      · obtain ⟨_, _, hmove, -⟩ := hdown
        simp at hmove
  | cons move rest ih =>
      have hfar : ∀ m, rules.tooFar here m = false := tooFar_eq_false hreach
      obtain ⟨-, hdir, hstay | hup | hdown⟩ := walkVia_cons_ok h
      · obtain ⟨rfl, hrest⟩ := hstay
        rw [walkVia_stay hdir (hfar _)]
        exact ih hrest
      · obtain ⟨rfl, hrest⟩ := hup
        rw [walkVia_up hdir (hfar _)]
        exact ih hrest
      · obtain ⟨name, node, rfl, hlen, hchild, hlink | hlast | hplain⟩ := hdown
        · obtain ⟨text, rfl, -, hjumped⟩ := hlink
          rw [walkVia_down_symlink hdir (hfar _) hlen hchild, hfollow]
          simp only [Bool.not_true, Bool.and_false, Bool.false_eq_true, if_false]
          exact hjump _ _ (by simpa using hjumped)
        · simp [hfollow] at hlast
        · obtain ⟨hnode, hrest⟩ := hplain
          rw [walkVia_down_plain hdir (hfar _) hlen hchild hnode]
          exact ih hrest

theorem walk_concat_stay {links : Nat} (hreach : rules.reach = none)
    (hfollow : rules.followLast = true)
    (h : walk tree rules links here (xs ++ [.stay]) = .ok place) :
    walk tree rules links here xs = .ok place := by
  induction links generalizing here xs with
  | zero => exact walkVia_concat_stay hreach hfollow (fun _ _ hj => by simp at hj) h
  | succ links ih => exact walkVia_concat_stay hreach hfollow (fun _ _ hj => ih hj) h

/-- No walk fails because something is there. -/
theorem walkVia_ne_alreadyExists (hjump : ∀ from' moves, jump from' moves ≠ .error .alreadyExists) :
    walkVia tree rules jump here xs ≠ .error .alreadyExists := by
  have hlong : Errno.nameTooLong ≠ .alreadyExists := by decide
  have hmissing : Errno.noEntry ≠ .alreadyExists := by decide
  have hfile : Errno.notDirectory ≠ .alreadyExists := by decide
  induction xs generalizing here with
  | nil => simp [walkVia]
  | cons move rest ih =>
      unfold walkVia
      split
      · simp [hlong]
      · split
        · simp [hmissing]
        · split
          · split
            · exact ih
            · exact ih
            · split
              · simp [hlong]
              · split
                · simp [hmissing]
                · split
                  · simp
                  · exact hjump _ _
                · exact ih
          · simp [hfile]

theorem walk_ne_alreadyExists {links : Nat} :
    walk tree rules links here xs ≠ .error .alreadyExists := by
  have hloop : Errno.loop ≠ .alreadyExists := by decide
  induction links generalizing here xs with
  | zero => exact walkVia_ne_alreadyExists fun _ _ => by simp [hloop]
  | succ links ih => exact walkVia_ne_alreadyExists fun _ _ => ih

/-! ## Names through directories -/

/-- A name that a call can ask for in a directory. -/
structure FitName (name : Name) : Prop extends PlainName name where
  short : name.length ≤ nameLimit
  no_nul : 0 ∉ name

/-- The names lead from `top` to a directory, through directories. -/
structure Passable (tree : FileTree) (top names : List Name) : Prop where
  isDir : tree.IsDirAt (top ++ names)
  fit : ∀ n ∈ names, FitName n

namespace Passable

variable {top names : List Name}

theorem keeps {after : FileTree} (h : tree.Passable top names) (hkept : tree.Keeps after) :
    after.Passable top names :=
  ⟨hkept.isDirAt h.isDir, h.fit⟩

theorem grows {after : FileTree} {at' : List Name} (h : tree.Passable top names)
    (hgrows : tree.Grows at' after) : after.Passable top names :=
  h.keeps hgrows.keeps

theorem nil (h : tree.IsDirAt top) : tree.Passable top [] :=
  ⟨by simpa using h, by simp⟩

theorem plain (h : tree.Passable top names) : ∀ n ∈ names, PlainName n :=
  fun n hn => (h.fit n hn).toPlainName

theorem no_slash (h : tree.Passable top names) : ∀ n ∈ names, slash ∉ n :=
  fun n hn => (h.fit n hn).toPlainName.no_slash

theorem dropLast (h : tree.Passable top names) : tree.Passable top names.dropLast :=
  ⟨h.isDir.dropLast, fun n hn => h.fit n (List.dropLast_subset _ hn)⟩

theorem concat (h : tree.Passable top names) {name : Name} (hname : FitName name)
    (hdir : tree.IsDirAt (top ++ names ++ [name])) : tree.Passable top (names ++ [name]) := by
  refine ⟨by rwa [← List.append_assoc], ?_⟩
  exact List.forall_mem_append.2 ⟨h.fit, List.forall_mem_singleton.2 hname⟩

end Passable

/-- A walk down by names through directories has no choice. -/
theorem walkVia_through {names : List Name} (hreach : rules.reach = none)
    (hdir : tree.IsDirAt (here ++ names)) (hshort : ∀ n ∈ names, n.length ≤ nameLimit) :
    walkVia tree rules jump here (names.map .down ++ rest)
      = walkVia tree rules jump (here ++ names) rest := by
  induction names generalizing here with
  | nil => simp
  | cons name names ih =>
      have hdir' : tree.IsDirAt (here ++ [name] ++ names) := by simpa using hdir
      obtain ⟨mode, entries, hchild⟩ := hdir'.above
      have hhere : tree.IsDirAt here := IsDirAt.above hdir
      rw [List.map_cons, List.cons_append,
        walkVia_down_plain hhere (tooFar_eq_false hreach _) (hshort name (by simp)) hchild rfl,
        ih hdir' fun n hn => hshort n (by simp [hn])]
      simp

theorem walk_through {names : List Name} {links : Nat} (hreach : rules.reach = none)
    (hdir : tree.IsDirAt (here ++ names)) (hshort : ∀ n ∈ names, n.length ≤ nameLimit) :
    walk tree rules links here (names.map .down ++ rest)
      = walk tree rules links (here ++ names) rest := by
  cases links <;> exact walkVia_through hreach hdir hshort

/-! ## The entry of a name -/

/-- What a call finds under the name in the directory at `parent`. -/
def entry (tree : FileTree) (parent : List Name) (name : Name) : Except Errno Node :=
  if nameLimit < name.length then .error .nameTooLong
  else
    match tree.at? (parent ++ [name]) with
    | none => .error .noEntry
    | some node => .ok node

theorem entry_eq_ok {parent : List Name} {node : Node} :
    tree.entry parent name = .ok node ↔
      name.length ≤ nameLimit ∧ tree.at? (parent ++ [name]) = some node := by
  unfold entry
  split
  · rename_i hlong
    simp [Nat.not_le.2 hlong]
  · rename_i hlen
    cases tree.at? (parent ++ [name]) <;> simp [Nat.not_lt.1 hlen]

theorem entry_eq_noEntry {parent : List Name} :
    tree.entry parent name = .error .noEntry ↔
      name.length ≤ nameLimit ∧ tree.at? (parent ++ [name]) = none := by
  unfold entry
  split
  · rename_i hlong
    have hne : Errno.nameTooLong ≠ Errno.noEntry := by decide
    simp [Nat.not_le.2 hlong, hne]
  · rename_i hlen
    cases tree.at? (parent ++ [name]) <;> simp [Nat.not_lt.1 hlen]

/-- A walk to a name in a directory, where a symlink is not followed. -/
theorem walk_down {links : Nat} {follow : Bool} (hdir : tree.IsDirAt here)
    (hkeep : follow = true → ¬ tree.IsSymlinkAt (here ++ [name])) :
    walk tree { followLast := follow } links here [.down name]
      = (tree.entry here name).map fun _ => here ++ [name] := by
  have hfar : ∀ m, WalkRules.tooFar { followLast := follow } here m = false :=
    tooFar_eq_false rfl
  unfold entry
  by_cases hlen : nameLimit < name.length
  · rw [if_pos hlen]
    cases links <;> exact walkVia_down_long hdir (hfar _) hlen
  · rw [if_neg hlen]
    have hlen' : name.length ≤ nameLimit := by omega
    cases hchild : tree.at? (here ++ [name]) with
    | none => cases links <;> exact walkVia_down_missing hdir (hfar _) hlen' hchild
    | some node =>
        cases hnode : node.isSymlink with
        | false =>
            cases links <;>
              exact (walkVia_down_plain hdir (hfar _) hlen' hchild hnode).trans
                (by simp [walkVia, Except.map])
        | true =>
            obtain ⟨text, rfl⟩ := Node.eq_symlink_of_isSymlink hnode
            have hfalse : follow = false := by
              cases follow with
              | false => rfl
              | true => exact absurd ⟨text, hchild⟩ (hkeep rfl)
            subst hfalse
            cases links <;>
              exact (walkVia_down_symlink hdir (hfar _) hlen' hchild).trans (by simp [Except.map])

/-! ## Opening a directory -/

theorem accept_eq_ok {p : Path} :
    accept p = .ok () ↔ p.bytes ≠ [] ∧ p.bytes.length ≤ pathLimit := by
  unfold accept
  split
  · rename_i hempty
    simp [List.isEmpty_iff.1 hempty]
  · rename_i hne
    split
    · rename_i hlong
      simp [Nat.not_le.2 hlong]
    · rename_i hlen
      simp [Nat.not_lt.1 hlen, List.isEmpty_iff.not.1 hne]

theorem locate_eq_ok {p : Path} {follow : Bool} :
    tree.locate follow p = .ok place ↔
      accept p = .ok () ∧ walk tree { followLast := follow } linkLimit [] p.moves = .ok place := by
  unfold locate
  cases accept p <;> simp [bind, Except.bind]

theorem openDir_eq_ok {p : Path} {top : List Name} :
    tree.openDir p = .ok top ↔
      0 ∉ p.bytes ∧ tree.locate true p = .ok top ∧ tree.IsDirAt top := by
  unfold openDir
  split
  · rename_i hnul
    simp [List.contains_iff_mem.1 hnul]
  · rename_i hnul
    have hnul' : 0 ∉ p.bytes := by simpa using hnul
    cases hloc : tree.locate true p with
    | error e => simp [bind, Except.bind]
    | ok place =>
        simp only [bind, Except.bind]
        cases hat : tree.at? place with
        | none =>
            refine ⟨fun h => by simp at h, ?_⟩
            rintro ⟨-, h, mode, entries, hd⟩
            obtain rfl : place = top := by simpa using h
            simp [hat] at hd
        | some node =>
            cases node with
            | dir mode entries =>
                refine ⟨fun h => ?_, fun h => by simpa using h.2.1⟩
                obtain rfl : place = top := by simpa using h
                exact ⟨hnul', rfl, mode, entries, hat⟩
            | _ =>
                refine ⟨fun h => by simp at h, ?_⟩
                rintro ⟨-, h, mode, entries, hd⟩
                obtain rfl : place = top := by simpa using h
                simp [hat] at hd

/-- The pieces of the path lead to the directory `top`, so that a name behind
the path is looked up there. -/
structure Leads (tree : FileTree) (p : Path) (top : List Name) : Prop where
  no_nul : 0 ∉ p.bytes
  walk : FileTree.walk tree { followLast := true } linkLimit [] p.pieceMoves = .ok top
  isDir : tree.IsDirAt top

theorem Leads.of_openDir {p : Path} {top : List Name} (h : tree.openDir p = .ok top) :
    tree.Leads p top := by
  obtain ⟨hnul, hloc, hdir⟩ := openDir_eq_ok.1 h
  obtain ⟨-, hwalk⟩ := locate_eq_ok.1 hloc
  refine ⟨hnul, ?_, hdir⟩
  by_cases hlast : p.bytes.getLast? = some slash
  · have hmoves : p.moves = p.pieceMoves ++ [.stay] := by
      simp [Path.moves, Path.pieceMoves, hlast]
    rw [hmoves] at hwalk
    exact walk_concat_stay rfl rfl hwalk
  · rwa [Path.moves_eq_pieceMoves hlast] at hwalk

/-! ## Where a walk ends -/

/-- A place that a walk can end at: a file that is no symlink, under names
that a directory can hold. -/
structure Sound (tree : FileTree) (place : List Name) : Prop where
  plain : ∀ n ∈ place, PlainName n
  short : ∀ n ∈ place, n.length ≤ nameLimit
  node : place = [] ∨ ∃ node, tree.at? place = some node ∧ node.isSymlink = false

namespace Sound

theorem nil (tree : FileTree) : tree.Sound [] := ⟨by simp, by simp, .inl rfl⟩

theorem dropLast (h : tree.Sound here) (hdir : tree.IsDirAt here) : tree.Sound here.dropLast := by
  have hdir' : tree.IsDirAt ([] ++ here) := hdir
  obtain ⟨mode, entries, hat⟩ := hdir'.dropLast
  exact ⟨fun n hn => h.plain n (List.dropLast_subset _ hn),
    fun n hn => h.short n (List.dropLast_subset _ hn), .inr ⟨_, hat, rfl⟩⟩

theorem concat {node : Node} (h : tree.Sound here) (hname : PlainName name)
    (hlen : name.length ≤ nameLimit) (hat : tree.at? (here ++ [name]) = some node)
    (hnode : node.isSymlink = false) : tree.Sound (here ++ [name]) := by
  refine ⟨?_, ?_, .inr ⟨node, hat, hnode⟩⟩
  · exact List.forall_mem_append.2 ⟨h.plain, List.forall_mem_singleton.2 hname⟩
  · exact List.forall_mem_append.2 ⟨h.short, List.forall_mem_singleton.2 hlen⟩

end Sound

/-- What holds of every place that a walk following all its links comes to: of the
root, of the parent of a directory, and of a file in reach that is no symlink. -/
structure WalkInvariant (tree : FileTree) (rules : WalkRules) (holds : List Name → Prop) :
    Prop where
  root : holds []
  up : ∀ {here}, holds here → tree.IsDirAt here → holds here.dropLast
  down : ∀ {here name node}, holds here → PlainName name → name.length ≤ nameLimit →
    rules.tooFar here (.down name) = false → tree.at? (here ++ [name]) = some node →
    node.isSymlink = false → holds (here ++ [name])

namespace WalkInvariant

variable {holds : List Name → Prop}

theorem walkVia (hinv : WalkInvariant tree rules holds) (hfollow : rules.followLast = true)
    (hjump : ∀ from' moves, holds from' → (∀ n, .down n ∈ moves → PlainName n) →
      jump from' moves = .ok place → holds place)
    (hhere : holds here) (hxs : ∀ n, .down n ∈ xs → PlainName n)
    (h : walkVia tree rules jump here xs = .ok place) : holds place := by
  induction xs generalizing here with
  | nil =>
      obtain rfl : here = place := by simpa [FileTree.walkVia] using h
      exact hhere
  | cons move rest ih =>
      have hrest : ∀ n, .down n ∈ rest → PlainName n := fun n hn => hxs n (by simp [hn])
      obtain ⟨hfar, hdir, hstay | hup | hdown⟩ := walkVia_cons_ok h
      · exact ih hhere hrest hstay.2
      · exact ih (hinv.up hhere hdir) hrest hup.2
      · obtain ⟨name, node, rfl, hlen, hchild, hlink | hlast | hplain⟩ := hdown
        · obtain ⟨text, rfl, -, hjumped⟩ := hlink
          refine hjump _ _ ?_ (fun n hn => ?_) hjumped
          · split
            · exact hinv.root
            · exact hhere
          · rcases List.mem_append.1 hn with hn | hn
            · exact Move.plain_of_mem_moves hn
            · exact hrest n hn
        · simp [hfollow] at hlast
        · obtain ⟨hnode, hrestok⟩ := hplain
          exact ih (hinv.down hhere (hxs name (by simp)) hlen hfar hchild hnode) hrest hrestok

theorem walk {links : Nat} (hinv : WalkInvariant tree rules holds)
    (hfollow : rules.followLast = true) (hhere : holds here)
    (hxs : ∀ n, .down n ∈ xs → PlainName n) (h : walk tree rules links here xs = .ok place) :
    holds place := by
  induction links generalizing here xs with
  | zero => exact hinv.walkVia hfollow (fun _ _ _ _ hj => by simp at hj) hhere hxs h
  | succ links ih => exact hinv.walkVia hfollow (fun _ _ hf hm hj => ih hf hm hj) hhere hxs h

end WalkInvariant

theorem walkInvariant_sound : WalkInvariant tree rules tree.Sound where
  root := Sound.nil tree
  up := Sound.dropLast
  down hhere hname hlen _ hat hnode := hhere.concat hname hlen hat hnode

theorem walk_sound {links : Nat} (hfollow : rules.followLast = true) (hhere : tree.Sound here)
    (hxs : ∀ n, .down n ∈ xs → PlainName n) (h : walk tree rules links here xs = .ok place) :
    tree.Sound place :=
  walkInvariant_sound.walk hfollow hhere hxs h

/-! ## Walks where files were added -/

theorem walkVia_keeps {after : FileTree}
    {jump' : List Name → List Move → Except Errno (List Name)} (hreach : rules.reach = none)
    (hkept : tree.Keeps after)
    (hjump : ∀ from' moves, jump from' moves = .ok place → jump' from' moves = .ok place)
    (h : walkVia tree rules jump here xs = .ok place) :
    walkVia after rules jump' here xs = .ok place := by
  induction xs generalizing here with
  | nil => simpa [walkVia] using h
  | cons move rest ih =>
      have hfar : ∀ m, rules.tooFar here m = false := tooFar_eq_false hreach
      obtain ⟨-, hdir, hstay | hup | hdown⟩ := walkVia_cons_ok h
      · obtain ⟨rfl, hrest⟩ := hstay
        rw [walkVia_stay (hkept.isDirAt hdir) (hfar _)]
        exact ih hrest
      · obtain ⟨rfl, hrest⟩ := hup
        rw [walkVia_up (hkept.isDirAt hdir) (hfar _)]
        exact ih hrest
      · obtain ⟨name, node, rfl, hlen, hchild, hlink | hlast | hplain⟩ := hdown
        · obtain ⟨text, rfl, hfollow, hjumped⟩ := hlink
          have hlink := hkept.at?_symlink hchild
          rw [walkVia_down_symlink (hkept.isDirAt hdir) (hfar _) hlen hlink, hfollow]
          exact hjump _ _ hjumped
        · obtain ⟨hkeep, hnode, rfl⟩ := hlast
          obtain ⟨text, rfl⟩ := Node.eq_symlink_of_isSymlink hnode
          have hlink := hkept.at?_symlink hchild
          rw [walkVia_down_symlink (hkept.isDirAt hdir) (hfar _) hlen hlink, if_pos hkeep]
        · obtain ⟨hnode, hrest⟩ := hplain
          obtain ⟨node', hchild', hnode'⟩ := hkept.at?_not_symlink hchild hnode
          rw [walkVia_down_plain (hkept.isDirAt hdir) (hfar _) hlen hchild' hnode']
          exact ih hrest

theorem walk_keeps {after : FileTree} {links : Nat}
    (hreach : rules.reach = none) (hkept : tree.Keeps after)
    (h : walk tree rules links here xs = .ok place) :
    walk after rules links here xs = .ok place := by
  induction links generalizing here xs with
  | zero => exact walkVia_keeps hreach hkept (fun _ _ hj => by simp at hj) h
  | succ links ih => exact walkVia_keeps hreach hkept (fun _ _ hj => ih hj) h

theorem Leads.keeps {after : FileTree} {p : Path} {top : List Name} (h : tree.Leads p top)
    (hkept : tree.Keeps after) : after.Leads p top :=
  ⟨h.no_nul, walk_keeps rfl hkept h.walk, hkept.isDirAt h.isDir⟩

theorem openDir_grows {after : FileTree} {p : Path} {top at' : List Name}
    (hgrows : tree.Grows at' after) (h : tree.openDir p = .ok top) :
    after.openDir p = .ok top := by
  obtain ⟨hnul, hloc, hdir⟩ := openDir_eq_ok.1 h
  obtain ⟨hacc, hwalk⟩ := locate_eq_ok.1 hloc
  have hloc' := locate_eq_ok.2 ⟨hacc, walk_keeps rfl hgrows.keeps hwalk⟩
  exact openDir_eq_ok.2 ⟨hnul, hloc', hgrows.keeps.isDirAt hdir⟩

end ContainerMounts.FileTree
