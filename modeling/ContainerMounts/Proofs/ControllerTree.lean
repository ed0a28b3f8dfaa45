/-
ContainerMounts.Proofs.ControllerTree — a directory in memory that mirrors the
host's controllers.

A host without a unified hierarchy has a directory of controllers. A container
with its own network gets a directory in memory in its place, and in that a
read-only bind of each controller and a copy of each link between controllers.
The directory is mounted writable, so that its entries can be made, and is
sealed by the last call of all.

`ListingCalls` lists the calls for the entries, one entry after the other, and
`mirrored` the files. An entry that fails is the last one that anything was
done for (`Mirrors`).

Main statement: `mountSynthetic_mirrors`. It takes a target that has no entry
yet (`Vacant`), and then no name is ever found in use: the names of a listing
are distinct, and a file made under one of them leaves the others free
(`Free.beside`).
-/
import ContainerMounts.Proofs.CreatedFiles
import ContainerMounts.Proofs.Failures
import ContainerMounts.Proofs.Restrictions
import ContainerMounts.Proofs.SampleHost
import Mathlib.Data.List.Nodup

namespace ContainerMounts

/-! ## A word without a flag -/

namespace MountFlags

variable {flags flag : MountFlags}

theorem IsBit.not_includes_without_self (h : flag.IsBit) :
    (flags.without flag).includes flag = false := by
  rw [h.includes_without]
  simp [includes]

theorem or_without_self : (flags ||| flag).without flag = flags.without flag := by
  refine BitVec.eq_of_getLsbD_eq fun i hi => ?_
  simp only [without, BitVec.getLsbD_and, BitVec.getLsbD_or, BitVec.getLsbD_not]
  cases flag.getLsbD i <;> simp

end MountFlags

/-! ## Names below a target -/

theorem nodup_eraseDups {α : Type} [BEq α] [LawfulBEq α] : (xs : List α) → xs.eraseDups.Nodup
  | [] => List.nodup_nil
  | x :: xs => by
      rw [List.eraseDups_cons, List.nodup_cons]
      exact ⟨by simp [List.mem_eraseDups], nodup_eraseDups _⟩
termination_by xs => xs.length
decreasing_by exact Nat.lt_succ_of_le (List.length_filter_le _ xs)

namespace FileTree

variable {tree tree' : FileTree} {p : Path} {name other : Name} {new : Node}
  {order : ListingOrder} {children entries : List (Name × Node)}

theorem entryNames_nodup : (entryNames order children).Nodup :=
  (order.perm _).nodup_iff.2 (nodup_eraseDups _)

theorem mem_entryNames {node : Node} (h : children.lookup name = some node) :
    name ∈ entryNames order children := by
  obtain ⟨before, after, rfl, -⟩ := List.lookup_eq_some_iff.1 h
  rw [entryNames, (order.perm _).mem_iff, List.mem_eraseDups]
  simp

/-- No name is listed twice. -/
theorem list_nodup (h : tree.list order p = .ok entries) : (entries.map (·.1)).Nodup := by
  obtain ⟨place, mode, children, -, -, rfl⟩ := list_eq_ok h
  rw [List.map_filterMap]
  refine List.Nodup.filterMap (fun name other found hname hother => ?_) entryNames_nodup
  simp only [Option.map_map, Option.mem_def, Option.map_eq_some_iff, Function.comp_apply]
    at hname hother
  obtain ⟨-, -, rfl⟩ := hname
  obtain ⟨-, -, rfl⟩ := hother
  rfl

/-- Nothing is below the path, wherever it leads. -/
def Vacant (tree : FileTree) (p : Path) : Prop := ∀ name, tree.Free p name

/-- A directory without entries is vacant. -/
theorem Vacant.of_list (h : tree.list order p = .ok []) : tree.Vacant p := by
  obtain ⟨place, mode, children, hfind, hat, hnone⟩ := list_eq_ok h
  obtain ⟨hnul, hloc⟩ := find_eq_ok.1 hfind
  have hopen : tree.Leads p place :=
    .of_openDir (openDir_eq_ok.2 ⟨hnul, hloc, mode, children, hat⟩)
  intro name parent hlead
  obtain rfl : parent = place := Except.ok.inj (hlead.walk.symm.trans hopen.walk)
  rw [at?_concat hat, Node.child?_dir]
  cases hlookup : children.lookup name with
  | none => rfl
  | some node =>
      have hmem : (name, node) ∈ (entryNames order children).filterMap fun name =>
          (children.lookup name).map fun node => (name, node) :=
        List.mem_filterMap.2 ⟨name, mem_entryNames hlookup, by simp [hlookup]⟩
      simp [← hnone] at hmem

/-- Making a file leaves the names beside it free. -/
theorem Free.beside (hfree : tree.Free p other) (hname : PlainName name) (hne : other ≠ name)
    (hnew : IsBare new) (hmake : tree.make (p.join ⟨name⟩) new = .ok tree') :
    tree'.Free p other := by
  rw [make_join hname] at hmake
  split at hmake
  · simp at hmake
  · cases hwalk : walk tree { followLast := true } linkLimit [] p.pieceMoves with
    | error e => simp [hwalk, Except.bind] at hmake
    | ok parent =>
        rw [hwalk] at hmake
        have hmade : tree.Made tree' parent name new := addEntry_eq_ok.1 hmake
        intro parent' hlead
        have hbefore : tree.Leads p parent := ⟨hlead.no_nul, hwalk, hmade.isDir⟩
        obtain rfl : parent' = parent :=
          Except.ok.inj (hlead.walk.symm.trans (hbefore.keeps (hmade.keeps hnew)).walk)
        have hplace : parent' ++ [other] ≠ parent' ++ [name] := by simpa using hne
        rw [← statAt?_eq_none, hmade.statAt? hnew, if_neg hplace, statAt?_eq_none]
        exact hfree parent' hbefore

end FileTree

/-! ## Entries, calls and files -/

/-- The flags of a sealed mount: it is read-only, it has what was asked for,
and it has what the mount around it enforces. -/
structure SealedFlags (table : MountTable) (p : Path) (wanted flags : MountFlags) : Prop where
  readonly : flags.includes MountFlags.readonly = true
  wanted : flags.includes wanted = true
  enclosing : ∀ r word flag, table.enclosing p = some r → (word, flag) ∈ MountFlags.restrictions →
    r.hasOption word = true → flags.includes flag = true

section Mirror

variable (host : Host) (target : Path) (wanted : MountFlags)

/-- The host's entry of that name is bound on the target's, without what is
mounted below it. -/
def controllerCall (name : Name) : KernelCall :=
  .mount (some (.at (host.paths.cgroupRoot.join ⟨name⟩))) (.at (target.join ⟨name⟩)) none
    MountFlags.bind none

/-- The calls for one entry, after those on record. -/
inductive EntryCalls (before : List Event) : Name × Node → List Event → Prop where
  /-- A directory is bound and sealed at once. -/
  | controller {name : Name} {mode : Nat} {children : List (Name × Node)} {table : MountTable}
      {flags : MountFlags}
      (htable : host.table (before ++ [⟨controllerCall host target name, none⟩]) = .ok table)
      (hflags : SealedFlags table (target.join ⟨name⟩) wanted flags) :
      EntryCalls before (name, .dir mode children)
        [⟨controllerCall host target name, none⟩,
          ⟨Contract.remountBindCall (target.join ⟨name⟩) flags, none⟩]
  | other {name : Name} {node : Node} (h : node.isDir = false) : EntryCalls before (name, node) []

/-- The calls for the entries, one entry after the other. -/
inductive ListingCalls : List Event → List (Name × Node) → List Event → Prop where
  | nil (before : List Event) : ListingCalls before [] []
  | cons {before xs ys : List Event} {e : Name × Node} {rest : List (Name × Node)}
      (first : EntryCalls host target wanted before e xs)
      (others : ListingCalls (before ++ xs) rest ys) : ListingCalls before (e :: rest) (xs ++ ys)

/-- The calls for an entry that something went wrong with. -/
inductive BrokenOff (name : Name) : List Event → Prop where
  /-- It was not made, or its bind could not be asked for. -/
  | unbound : BrokenOff name []
  | refused (e : Errno) : BrokenOff name [⟨controllerCall host target name, some e⟩]
  /-- It was bound, and its flags are not known. -/
  | unsealed : BrokenOff name [⟨controllerCall host target name, none⟩]
  | sealRefused (flags : MountFlags) (e : Errno) :
      BrokenOff name [⟨controllerCall host target name, none⟩,
        ⟨Contract.remountBindCall (target.join ⟨name⟩) flags, some e⟩]

/-- The file that an entry becomes: directories and links have one each. -/
def mirror? : Name × Node → Option (Path × Stat)
  | (name, .dir ..) => some (target.join ⟨name⟩, .dir 0o755)
  | (name, .symlink text) => some (target.join ⟨name⟩, .symlink text)
  | _ => none

/-- The files that the entries become. -/
def mirrored (entries : List (Name × Node)) : List (Path × Stat) :=
  entries.filterMap (mirror? target)

/-- How it goes with one entry. -/
inductive MirrorsEntry (m : Machine) (e : Name × Node) : Except Error Unit × Machine → Prop where
  | whole {m' : Machine} {calls : List Event}
      (hcalls : EntryCalls host target wanted m.events e calls)
      (events : m'.events = m.events ++ calls)
      (files : m.tree.Adds m'.tree (mirror? target e).toList) : MirrorsEntry m e (.ok (), m')
  | part {error : Error} {m' : Machine} {calls : List Event} {made : List (Path × Stat)}
      (hcalls : BrokenOff host target e.1 calls) (events : m'.events = m.events ++ calls)
      (hmade : made <+: (mirror? target e).toList) (files : m.tree.Adds m'.tree made) :
      MirrorsEntry m e (.error error, m')

/-- How it goes with all entries: up to the first that something goes wrong
with. -/
inductive MirrorsListing (m : Machine) (entries : List (Name × Node)) :
    Except Error Unit × Machine → Prop where
  | whole {m' : Machine} {calls : List Event}
      (hcalls : ListingCalls host target wanted m.events entries calls)
      (events : m'.events = m.events ++ calls)
      (files : m.tree.Adds m'.tree (mirrored target entries)) :
      MirrorsListing m entries (.ok (), m')
  | part {error : Error} {m' : Machine} {done rest : List (Name × Node)} {e : Name × Node}
      {calls last : List Event} {made : List (Path × Stat)} (split : entries = done ++ e :: rest)
      (hcalls : ListingCalls host target wanted m.events done calls)
      (hlast : BrokenOff host target e.1 last) (events : m'.events = m.events ++ calls ++ last)
      (hmade : made <+: (mirror? target e).toList)
      (files : m.tree.Adds m'.tree (mirrored target done ++ made)) :
      MirrorsListing m entries (.error error, m')

/-- The call that mounts the directory in memory, writable. -/
def memoryCall : KernelCall :=
  .mount (some (Run.sourceName "tmpfs")) (.at target) (some "tmpfs")
    (wanted.without MountFlags.readonly) (some "mode=755")

/-- The call that makes it read-only. -/
def sealCall : KernelCall :=
  .mount none (.at target) none (wanted ||| MountFlags.readonly ||| MountFlags.remount)
    (some "mode=755")

/-- How the mount of the whole tree goes. -/
inductive Mirrors (m : Machine) : Except Error Unit × Machine → Prop where
  /-- Every entry is mirrored, and the directory is read-only. -/
  | whole {m' : Machine} {entries : List (Name × Node)} {calls : List Event}
      (listed : m.tree.list host.listing host.paths.cgroupRoot = .ok entries)
      (distinct : (entries.map (·.1)).Nodup)
      (writable : (wanted.without MountFlags.readonly).includes MountFlags.readonly = false)
      (hcalls : ListingCalls host target wanted
        (m.events ++ [⟨memoryCall target wanted, none⟩]) entries calls)
      (events : m'.events = m.events ++ [⟨memoryCall target wanted, none⟩] ++ calls
        ++ [⟨sealCall target wanted, none⟩])
      (files : m.tree.Adds m'.tree (mirrored target entries)) : Mirrors m (.ok (), m')
  /-- There is no memory, or no listing: no entry is touched. -/
  | untouched {error : Error} {m' : Machine} {calls : List Event}
      (hcalls : calls = [] ∨ ∃ refusal, calls = [⟨memoryCall target wanted, refusal⟩])
      (events : m'.events = m.events ++ calls) (files : m'.tree = m.tree) :
      Mirrors m (.error error, m')
  /-- Something goes wrong with an entry: it is the last one touched, and the
  directory stays writable. -/
  | part {error : Error} {m' : Machine} {entries done rest : List (Name × Node)}
      {e : Name × Node} {calls last : List Event} {made : List (Path × Stat)}
      (listed : m.tree.list host.listing host.paths.cgroupRoot = .ok entries)
      (split : entries = done ++ e :: rest)
      (hcalls : ListingCalls host target wanted
        (m.events ++ [⟨memoryCall target wanted, none⟩]) done calls)
      (hlast : BrokenOff host target e.1 last)
      (events : m'.events = m.events ++ [⟨memoryCall target wanted, none⟩] ++ calls ++ last)
      (hmade : made <+: (mirror? target e).toList)
      (files : m.tree.Adds m'.tree (mirrored target done ++ made)) : Mirrors m (.error error, m')
  /-- Every entry is mirrored, and the directory cannot be made read-only. -/
  | unsealed {error : Error} {m' : Machine} {entries : List (Name × Node)}
      {calls last : List Event}
      (listed : m.tree.list host.listing host.paths.cgroupRoot = .ok entries)
      (hcalls : ListingCalls host target wanted
        (m.events ++ [⟨memoryCall target wanted, none⟩]) entries calls)
      (hlast : last = [] ∨ ∃ e, last = [⟨sealCall target wanted, some e⟩])
      (events : m'.events = m.events ++ [⟨memoryCall target wanted, none⟩] ++ calls ++ last)
      (files : m.tree.Adds m'.tree (mirrored target entries)) : Mirrors m (.error error, m')

end Mirror

/-! ## Operations of one call -/

/-- How an operation of one call goes. A call that is withheld is not on
record. -/
inductive OneCall (m : Machine) (call : KernelCall) : Except Error Unit × Machine → Prop where
  | accepted {m' : Machine} (tree : m'.tree = m.tree)
      (events : m'.events = m.events ++ [⟨call, none⟩]) : OneCall m call (.ok (), m')
  | failed {error : Error} {m' : Machine} {made : List Event} (tree : m'.tree = m.tree)
      (events : m'.events = m.events ++ made)
      (hmade : made = [] ∨ ∃ e, made = [⟨call, some e⟩]) : OneCall m call (.error error, m')

namespace Run

variable (host : Host) (m : Machine)

theorem result_operation (operation : String) (args : MountArgs) :
    OneCall m args.call ((mountCall? operation args >>= raise).result host m) := by
  obtain ⟨fault, m', hresult, hissued⟩ := result_mountCall? host m operation args
  rw [result_bind, hresult]
  cases hissued with
  | withheld tree log =>
      exact .failed tree (by simp [Machine.events, log]) (.inl rfl)
  | @made refusal m' tree log =>
      have hevents : m'.events = m.events ++ [⟨args.call, refusal⟩] := by
        simp [Machine.events, log]
      cases refusal with
      | none => exact .accepted tree hevents
      | some e => exact .failed tree hevents (.inr ⟨e, rfl⟩)

theorem result_bindMount (source target : Spot) (recursive : Bool) :
    OneCall m (.mount (some source) target none (Contract.bindFlags recursive) none)
      ((bindMount source target recursive).result host m) :=
  result_operation host m "bind mount"
    { source := some source, target, flags := Contract.bindFlags recursive }

theorem result_remountBind (target : Path) (flags : MountFlags) :
    OneCall m (Contract.remountBindCall target flags) ((remountBind target flags).result host m) :=
  result_operation host m "bind remount"
    { target := .at target, flags := flags ||| MountFlags.bind ||| MountFlags.remount }

/-- A remount with inherited flags is one call, once the table can be read. -/
theorem result_remountInherited (p : Path) (flags : MountFlags) :
    match host.table m.events with
    | .ok table => OneCall m (Contract.remountBindCall p (table.inherit p flags))
        ((do remountBind p (← inherit p flags) : Run Unit).result host m)
    | .error error => (do remountBind p (← inherit p flags) : Run Unit).result host m
        = (.error error, m) := by
  have hinherit : (inherit p flags).result host m
      = ((host.table m.events).map fun table => table.inherit p flags, m) := by
    unfold inherit
    rw [result_bind, result_table]
    cases host.table m.events <;> rfl
  rw [result_bind, hinherit]
  cases host.table m.events with
  | error error => rfl
  | ok table => exact result_remountBind host m p (table.inherit p flags)

end Run

section Entries

open FileTree (IsBare)

variable {host : Host} {m : Machine} {target : Path} {flags wanted : MountFlags}
  {name : Name} {e : Name × Node} {entries children : List (Name × Node)} {mode : Nat}

theorem sealedFlags (table : MountTable) (p : Path) (wanted : MountFlags) :
    SealedFlags table p wanted (table.inherit p (wanted ||| MountFlags.readonly)) where
  readonly := MountTable.inherit_includes_wanted (MountFlags.includes_or_right (by decide))
  wanted := MountTable.inherit_includes_wanted
    (MountFlags.includes_or_left (by simp [MountFlags.includes]))
  enclosing _ _ _ hr hflag hword := MountTable.inherit_includes hr hword hflag

/-- The bind of a controller and what follows it. -/
def sealController (host : Host) (target : Path) (flags : MountFlags) (name : Name) : Run Unit := do
  Run.bindMount (.at (host.paths.cgroupRoot.join ⟨name⟩)) (.at (target.join ⟨name⟩)) false
  Run.remountBind (target.join ⟨name⟩) (← Run.inherit (target.join ⟨name⟩) flags)

/-- A controller is bound and sealed once its directory is there. -/
theorem sealController_mirrors {m₁ : Machine} (hevents : m₁.events = m.events)
    (hfiles : m.tree.Adds m₁.tree [(target.join ⟨name⟩, .dir 0o755)]) :
    MirrorsEntry host target wanted m (name, .dir mode children)
        ((sealController host target (wanted ||| MountFlags.readonly) name).result host m₁)
      ∧ ((sealController host target (wanted ||| MountFlags.readonly) name).result host m₁).2.tree
        = m₁.tree := by
  have hbind := Run.result_bindMount host m₁ (.at (host.paths.cgroupRoot.join ⟨name⟩))
    (.at (target.join ⟨name⟩)) false
  unfold sealController
  rw [Run.result_bind]
  generalize (Run.bindMount _ _ _).result host m₁ = bound at hbind ⊢
  cases hbind with
  | failed tree events hmade =>
      rw [hevents] at events
      refine ⟨.part ?_ events List.prefix_rfl (tree ▸ hfiles), tree⟩
      rcases hmade with rfl | ⟨e, rfl⟩
      · exact .unbound
      · exact .refused _
  | @accepted m₂ tree events =>
      rw [hevents] at events
      have hseal := Run.result_remountInherited host m₂ (target.join ⟨name⟩)
        (wanted ||| MountFlags.readonly)
      rw [← tree] at hfiles ⊢
      dsimp only
      generalize (Run.result _ host m₂) = sealed at hseal ⊢
      cases htable : host.table m₂.events with
      | error error =>
          obtain rfl : sealed = (.error error, m₂) := by rwa [htable] at hseal
          exact ⟨.part .unsealed events List.prefix_rfl hfiles, rfl⟩
      | ok table =>
          rw [htable] at hseal
          cases hseal with
          | failed tree' events' hmade =>
              rw [events, List.append_assoc] at events'
              refine ⟨.part ?_ events' List.prefix_rfl (tree' ▸ hfiles), tree'⟩
              rcases hmade with rfl | ⟨e, rfl⟩
              · exact .unsealed
              · exact .sealRefused _ _
          | accepted tree' events' =>
              rw [events, List.append_assoc] at events'
              have hlisted : host.table (m.events ++ [⟨controllerCall host target name, none⟩])
                  = .ok table := events ▸ htable
              exact ⟨.whole (.controller hlisted (sealedFlags table _ wanted)) events'
                (tree' ▸ hfiles), tree'⟩

theorem addController_mirrors (host : Host) (wanted : MountFlags) (hname : PlainName e.1)
    (hfree : m.tree.Free target e.1) :
    MirrorsEntry host target wanted m e ((Run.addController host.paths.cgroupRoot target
        (wanted ||| MountFlags.readonly) e.1 e.2).result host m)
      ∧ ∀ other, other ≠ e.1 → m.tree.Free target other →
        ((Run.addController host.paths.cgroupRoot target (wanted ||| MountFlags.readonly)
          e.1 e.2).result host m).2.tree.Free target other := by
  obtain ⟨name, node⟩ := e
  cases node with
  | symlink text =>
      unfold Run.addController
      dsimp only
      rw [Run.result_bind, Run.result_change?]
      cases hlink : m.tree.makeLink text (target.join ⟨name⟩) with
      | ok tree =>
          exact ⟨.whole (.other rfl) (List.append_nil _).symm (FileTree.makeLink_adds hlink),
            fun other hne hother =>
              hother.beside hname hne (fun _ => rfl) (FileTree.make_of_makeLink hlink)⟩
      | error fault =>
          exact ⟨.part .unbound (List.append_nil _).symm List.nil_prefix (.refl m.tree),
            fun _ _ h => h⟩
  | dir mode children =>
      unfold Run.addController Run.bindController
      dsimp only
      rw [Run.result_bind, Run.result_change?]
      cases hdir : m.tree.makeDir (target.join ⟨name⟩) Run.controllerMode with
      | ok tree =>
          refine And.imp_right (fun htree other hne hother => ?_)
            (sealController_mirrors rfl (FileTree.makeDir_adds hdir).1)
          have hfree := hother.beside hname hne (fun _ => rfl) (FileTree.make_of_makeDir hdir).2
          exact (congrArg (FileTree.Free · target other) htree).mpr hfree
      | error fault =>
          have hfault : fault ≠ .os .alreadyExists := fun h =>
            FileTree.makeDir_ne_alreadyExists hname hfree (h ▸ hdir)
          dsimp only
          rw [if_pos hfault]
          exact ⟨.part .unbound (List.append_nil _).symm List.nil_prefix (.refl m.tree),
            fun _ _ h => h⟩
  | _ => exact ⟨.whole (.other rfl) (by simp) (.refl m.tree), fun _ _ h => h⟩

theorem mirrored_cons (e : Name × Node) (rest : List (Name × Node)) :
    mirrored target (e :: rest) = (mirror? target e).toList ++ mirrored target rest := by
  rw [mirrored, List.filterMap_cons]
  cases mirror? target e <;> rfl

/-- One entry is mirrored, and then the others go their way. -/
theorem MirrorsListing.after {m₁ : Machine} {calls : List Event} {rest : List (Name × Node)}
    {out : Except Error Unit × Machine} (hcalls : EntryCalls host target wanted m.events e calls)
    (hevents : m₁.events = m.events ++ calls)
    (hfiles : m.tree.Adds m₁.tree (mirror? target e).toList)
    (h : MirrorsListing host target wanted m₁ rest out) :
    MirrorsListing host target wanted m (e :: rest) out := by
  cases h with
  | whole hrest events files =>
      rw [hevents] at hrest events
      refine .whole (.cons hcalls hrest) (by rw [events, List.append_assoc]) ?_
      rw [mirrored_cons]
      exact hfiles.append files
  | @part error m' left others failing calls' last made split hrest hlast events hmade files =>
      rw [hevents] at hrest events
      have hsplit : e :: rest = (e :: left) ++ failing :: others := by rw [split, List.cons_append]
      refine .part hsplit (.cons hcalls hrest) hlast (by simp only [events, List.append_assoc])
        hmade ?_
      rw [mirrored_cons, List.append_assoc]
      exact hfiles.append files

/-- The entries are mirrored up to the first that something goes wrong with. -/
theorem addControllers_mirrors (host : Host) (wanted : MountFlags)
    (hplain : ∀ e ∈ entries, PlainName e.1)
    (hdistinct : (entries.map (·.1)).Nodup) (hfree : ∀ e ∈ entries, m.tree.Free target e.1) :
    MirrorsListing host target wanted m entries ((Run.addControllers host.paths.cgroupRoot target
      (wanted ||| MountFlags.readonly) entries).result host m) := by
  induction entries generalizing m with
  | nil => exact .whole (.nil _) (List.append_nil _).symm (.refl m.tree)
  | cons e rest ih =>
      obtain ⟨hfirst, hbeside⟩ := addController_mirrors host wanted (hplain e List.mem_cons_self)
        (hfree e List.mem_cons_self)
      unfold Run.addControllers
      rw [Run.result_bind]
      generalize (Run.addController _ _ _ _ _).result host m = out at hfirst hbeside ⊢
      cases hfirst with
      | part hcalls events hmade files =>
          exact .part (List.nil_append _).symm (.nil _) hcalls (by simpa using events) hmade files
      | @whole m₁ calls hcalls events files =>
          rw [List.map_cons, List.nodup_cons] at hdistinct
          have hrest : ∀ e' ∈ rest, m₁.tree.Free target e'.1 := fun e' he' =>
            hbeside e'.1 (fun heq => hdistinct.1 (heq ▸ List.mem_map_of_mem he'))
              (hfree e' (List.mem_cons_of_mem e he'))
          exact .after hcalls events files
            (ih (fun e' he' => hplain e' (List.mem_cons_of_mem e he')) hdistinct.2 hrest)

end Entries

namespace Run

theorem result_memory (host : Host) (m : Machine) (target : Path) (wanted : MountFlags) :
    OneCall m (memoryCall target wanted) ((mountFilesystem (sourceName "tmpfs") (.at target) "tmpfs"
      ((wanted ||| MountFlags.readonly).without MountFlags.readonly) syntheticData).result
        host m) := by
  rw [MountFlags.or_without_self]
  exact result_operation host m "mount"
    { source := some (sourceName "tmpfs"), target := .at target, fsType := some "tmpfs"
      flags := wanted.without MountFlags.readonly, data := some syntheticData }

theorem result_seal (host : Host) (m : Machine) (target : Path) (wanted : MountFlags) :
    OneCall m (sealCall target wanted)
      ((remount target (wanted ||| MountFlags.readonly) syntheticData).result host m) :=
  result_operation host m "remount"
    { target := .at target, flags := wanted ||| MountFlags.readonly ||| MountFlags.remount
      data := some syntheticData }

/-- What follows the listing, once there is memory. -/
theorem fill_mirrors {host : Host} {m m₁ : Machine} {target : Path} {wanted : MountFlags}
    {entries : List (Name × Node)} (hnamed : m.tree.WellNamed) (hvacant : m.tree.Vacant target)
    (tree : m₁.tree = m.tree) (events : m₁.events = m.events ++ [⟨memoryCall target wanted, none⟩])
    (hlisted : m.tree.list host.listing host.paths.cgroupRoot = .ok entries) :
    Mirrors host target wanted m (Run.result (do
      addControllers host.paths.cgroupRoot target (wanted ||| MountFlags.readonly) entries
      remount target (wanted ||| MountFlags.readonly) syntheticData) host m₁) := by
  have hdistinct := FileTree.list_nodup hlisted
  have hfree : ∀ e ∈ entries, m₁.tree.Free target e.1 := fun e _ => tree ▸ hvacant e.1
  have hentries := addControllers_mirrors host wanted (FileTree.list_plain hnamed hlisted)
    hdistinct hfree
  rw [result_bind]
  generalize (addControllers _ _ _ _).result host m₁ = out at hentries ⊢
  cases hentries with
  | part split hcalls hlast events' hmade files =>
      rw [events] at hcalls events'
      rw [tree] at files
      exact .part hlisted split hcalls hlast events' hmade files
  | @whole m₂ calls hcalls events' files =>
      rw [events] at hcalls events'
      rw [tree] at files
      have hwritable : (wanted.without MountFlags.readonly).includes MountFlags.readonly = false :=
        (Restriction.flag_isBit .readonly).not_includes_without_self
      have hseal := result_seal host m₂ target wanted
      dsimp only
      generalize (remount _ _ _).result host m₂ = out at hseal ⊢
      cases hseal with
      | accepted tree' events'' =>
          rw [events'] at events''
          exact .whole hlisted hdistinct hwritable hcalls events'' (tree' ▸ files)
      | failed tree' events'' hmade =>
          rw [events'] at events''
          exact .unsealed hlisted hcalls hmade events'' (tree' ▸ files)

/-- **The directory in memory mirrors the host's controllers.** Whichever flags
are asked for, to which a mount of control groups adds the read-only one, a
target that has no entry of its own gets a writable directory, one entry after
the other of the host's listing, and the read-only flag last. When something
goes wrong, no later entry is touched and the directory is not sealed. -/
theorem mountSynthetic_mirrors (host : Host) (m : Machine) (target : Path) (wanted : MountFlags)
    (hnamed : m.tree.WellNamed) (hvacant : m.tree.Vacant target) :
    Mirrors host target wanted m
      ((mountSynthetic target (wanted ||| MountFlags.readonly)).result host m) := by
  have hmemory := result_memory host m target wanted
  unfold mountSynthetic
  rw [result_bind]
  generalize (mountFilesystem _ _ _ _ _).result host m = memory at hmemory ⊢
  cases hmemory with
  | failed tree events hmade =>
      exact .untouched (hmade.imp_right fun ⟨e, he⟩ => ⟨some e, he⟩) events tree
  | @accepted m₁ tree events =>
      dsimp only
      rw [result_bind, result_read]
      dsimp only
      rw [result_bind, result_ask, tree]
      cases hlisted : m.tree.list host.listing host.paths.cgroupRoot with
      | error fault => exact .untouched (.inr ⟨none, rfl⟩) events tree
      | ok entries => exact fill_mirrors hnamed hvacant tree events hlisted

/-- The host lists two controllers, a link and a file, in an order that is neither
theirs nor that of their names. -/
theorem mountSynthetic_mirrors_nosuid :
    let host := Sample.groupHost
    let target := Sample.root.path
    let m : Machine := { tree := Sample.groups }
    let act := mountSynthetic target (MountFlags.nosuid ||| MountFlags.readonly)
    m.tree.WellNamed ∧ m.tree.Vacant target
      ∧ m.tree.list host.listing host.paths.cgroupRoot = .ok Sample.controllers.reverse
      ∧ (act.result host m).1 = .ok ()
      ∧ Mirrors host target MountFlags.nosuid m (act.result host m) := by
  intro host target m act
  have hempty : m.tree.list .asAdded target = .ok [] := rfl
  have hvacant : m.tree.Vacant target := .of_list hempty
  exact ⟨Sample.wellNamed_groups, hvacant, rfl, by decide +kernel,
    mountSynthetic_mirrors host m target MountFlags.nosuid Sample.wellNamed_groups hvacant⟩

end Run

end ContainerMounts
