/-
ContainerMounts.Proofs.CallContracts — what the mount operations put on
record.

Every operation that changes a mount is one call, or none if an argument
cannot be passed (`Issued`); where it succeeds, the call was made and
accepted. `makeReadonlyRecursive` may be two calls. The id mapping of a
bind needs a helper process, whose calls touch no mount
(`createUserNamespace_contract`).
-/
import ContainerMounts.IdMappedBind
import ContainerMounts.Proofs.Contract
import ContainerMounts.VirtualMount

namespace ContainerMounts

/-- The files stay as they are, and only such calls are made. -/
def Promise.only (p : KernelCall → Prop) : Promise where
  files := fun a b => a = b
  call := fun _ moment => p moment.event.call
  refl := fun _ => rfl
  trans := Eq.trans

theorem Promise.calls_only {p : KernelCall → Prop} {log moments : List Moment}
    (h : ∀ moment ∈ moments, p moment.event.call) : (Promise.only p).Calls log moments := by
  induction moments generalizing log with
  | nil => exact .nil log
  | cons moment rest ih =>
      exact .cons (h moment (by simp)) (ih fun later hlater => h later (by simp [hlater]))

/-- The promise, by what was put on record. -/
theorem Promise.kept_only_iff {p : KernelCall → Prop} {m m' : Machine} :
    (Promise.only p).Kept m m' ↔ m'.tree = m.tree ∧ ∃ new, m'.log = m.log ++ new
      ∧ ∀ moment ∈ new, moment.tree = m.tree ∧ p moment.event.call := by
  constructor
  · rintro ⟨hfiles, new, hlog, hcalls, hseen⟩
    refine ⟨hfiles.symm, new, hlog, fun moment hmoment => ⟨(hseen moment hmoment).symm, ?_⟩⟩
    obtain ⟨before, after, hsplit⟩ := List.append_of_mem hmoment
    exact hcalls.at hsplit
  · rintro ⟨htree, new, hlog, hnew⟩
    exact ⟨htree.symm, new, hlog, calls_only fun moment hmoment => (hnew moment hmoment).2,
      fun moment hmoment => (hnew moment hmoment).1.symm⟩

/-! ## One call -/

/-- What became of a call: it was withheld, since an argument has a NUL byte,
or put on record with its answer. -/
inductive Issued (m : Machine) (call : KernelCall) : Option Fault → Machine → Prop where
  | withheld {position : Nat} {m' : Machine} (tree : m'.tree = m.tree) (log : m'.log = m.log) :
      Issued m call (some (.nulInArgument position)) m'
  | made {refusal : Option Errno} {m' : Machine} (tree : m'.tree = m.tree)
      (log : m'.log = m.log ++ [⟨m.tree, ⟨call, refusal⟩⟩]) :
      Issued m call (refusal.map .os) m'

/-- One machine is another after a call that was accepted. -/
structure Accepted (m : Machine) (call : KernelCall) (m' : Machine) : Prop where
  tree : m'.tree = m.tree
  log : m'.log = m.log ++ [⟨m.tree, ⟨call, none⟩⟩]

theorem Accepted.events {m m' : Machine} {call : KernelCall} (h : Accepted m call m') :
    m'.events = m.events ++ [⟨call, none⟩] := by
  rw [Machine.events, h.log, List.map_append]
  rfl

theorem Issued.accepted {m m' : Machine} {call : KernelCall} (h : Issued m call none m') :
    Accepted m call m' := by
  generalize hf : (none : Option Fault) = fault at h
  cases h with
  | withheld tree log => simp at hf
  | @made refusal _ tree log =>
      obtain rfl : refusal = none := by simpa using hf.symm
      exact ⟨tree, log⟩

theorem Issued.refused {m m' : Machine} {call : KernelCall} {e : Errno}
    (h : Issued m call (some (.os e)) m') :
    m'.tree = m.tree ∧ m'.log = m.log ++ [⟨m.tree, ⟨call, some e⟩⟩] := by
  generalize hf : some (Fault.os e) = fault at h
  cases h with
  | withheld tree log => simp at hf
  | @made refusal _ tree log =>
      obtain rfl : refusal = some e := by simpa [eq_comm] using hf
      exact ⟨tree, log⟩

namespace Contract

variable {g : Promise} {host : Host} {m : Machine}

section Mount

variable {args : Run.MountArgs}
  (hcall : ∀ refusal, g.call m.log ⟨m.tree, ⟨args.call, refusal⟩⟩)

include hcall

theorem mountCall {post : Option Fault → Machine → Prop}
    (h : ∀ fault m', Issued m args.call fault m' → post fault m') :
    Contract g host m (Run.mountCall args) post := by
  unfold Run.mountCall
  split
  · exact .pure (h _ m (.withheld rfl rfl))
  · exact .bind (.issue hcall fun refusal m' htree hlog _ => .pure (h _ m' (.made htree hlog)))

theorem mountCall? {operation : String} {post : Option Error → Machine → Prop}
    (h : ∀ fault m', Issued m args.call fault m' →
      post (fault.map fun f => .mount operation args.target.path f) m') :
    Contract g host m (Run.mountCall? operation args) post :=
  .bind (mountCall hcall fun fault m' hissued _ => .pure (h fault m' hissued))

/-- A mount operation that succeeds is a call that was accepted. -/
theorem operation {operation : String} {post : Unit → Machine → Prop}
    (h : ∀ m', Accepted m args.call m' → post () m') :
    Contract g host m (Run.mountCall? operation args >>= Run.raise) post := by
  refine .bind (mountCall? hcall fun fault m' hissued _ => .raise fun hnone => ?_)
  obtain rfl : fault = none := by simpa using hnone
  exact h m' hissued.accepted

end Mount

/-! ## The operations -/

variable {post : Unit → Machine → Prop}

theorem mountFilesystem? {source target : Spot} {fsType data : String} {flags : MountFlags}
    {post : Option Error → Machine → Prop}
    (hcall : ∀ refusal, g.call m.log ⟨m.tree, ⟨.mount (some source) target (some fsType) flags
      ((some data).filter (!·.isEmpty)), refusal⟩⟩)
    (h : ∀ fault m', Issued m (.mount (some source) target (some fsType) flags
      ((some data).filter (!·.isEmpty))) fault m' →
      post (fault.map fun f => .mount "mount" target.path f) m') :
    Contract g host m (Run.mountFilesystem? source target fsType flags data) post :=
  mountCall? hcall h

theorem mountFilesystem {source target : Spot} {fsType data : String} {flags : MountFlags}
    (hcall : ∀ refusal, g.call m.log ⟨m.tree, ⟨.mount (some source) target (some fsType) flags
      ((some data).filter (!·.isEmpty)), refusal⟩⟩)
    (h : ∀ m', Accepted m (.mount (some source) target (some fsType) flags
      ((some data).filter (!·.isEmpty))) m' → post () m') :
    Contract g host m (Run.mountFilesystem source target fsType flags data) post :=
  operation hcall h

/-- The flags of a bind. -/
def bindFlags (recursive : Bool) : MountFlags :=
  if recursive then MountFlags.bind ||| MountFlags.recursive else MountFlags.bind

theorem bindMount {source target : Spot} {recursive : Bool}
    (hcall : ∀ refusal,
      g.call m.log ⟨m.tree, ⟨.mount (some source) target none (bindFlags recursive) none, refusal⟩⟩)
    (h : ∀ m', Accepted m (.mount (some source) target none (bindFlags recursive) none) m' →
      post () m') :
    Contract g host m (Run.bindMount source target recursive) post :=
  operation hcall h

/-- The call of a bind remount. -/
def remountBindCall (target : Path) (flags : MountFlags) : KernelCall :=
  .mount none (.at target) none (flags ||| MountFlags.bind ||| MountFlags.remount) none

theorem remountBind {target : Path} {flags : MountFlags}
    (hcall : ∀ refusal, g.call m.log ⟨m.tree, ⟨remountBindCall target flags, refusal⟩⟩)
    (h : ∀ m', Accepted m (remountBindCall target flags) m' → post () m') :
    Contract g host m (Run.remountBind target flags) post :=
  operation hcall h

theorem remount {target : Path} {flags : MountFlags} {data : String}
    (hcall : ∀ refusal, g.call m.log ⟨m.tree, ⟨.mount none (.at target) none
      (flags ||| MountFlags.remount) ((some data).filter (!·.isEmpty)), refusal⟩⟩)
    (h : ∀ m', Accepted m (.mount none (.at target) none (flags ||| MountFlags.remount)
      ((some data).filter (!·.isEmpty))) m' → post () m') :
    Contract g host m (Run.remount target flags data) post :=
  operation hcall h

theorem setPropagation {target : Path} {propagation : Propagation}
    (hcall : ∀ refusal,
      g.call m.log ⟨m.tree, ⟨.mount none (.at target) none propagation.flags none, refusal⟩⟩)
    (h : ∀ m', Accepted m (.mount none (.at target) none propagation.flags none) m' → post () m') :
    Contract g host m (Run.setPropagation target propagation) post :=
  operation hcall h

theorem setAttrAt {path : Path} {flags : AtFlags} {change : AttrChange}
    {post : Option Fault → Machine → Prop}
    (hcall : ∀ refusal, g.call m.log ⟨m.tree, ⟨.setAttrAt path flags change, refusal⟩⟩)
    (h : ∀ fault m', Issued m (.setAttrAt path flags change) fault m' → post fault m') :
    Contract g host m (Run.setAttrAt path flags change) post := by
  unfold Run.setAttrAt
  split
  · exact .pure (h _ m (.withheld rfl rfl))
  · exact .bind (.issue hcall fun refusal m' htree hlog _ => .pure (h _ m' (.made htree hlog)))

/-- The call that makes every mount at and below a path read-only. -/
def readonlyCall (target : Path) : KernelCall :=
  .setAttrAt target AtFlags.recursive Run.readonlyChange

/-- Two ways lead to a recursive read-only mount: the attribute call, or,
where the kernel has none, a remount of the top mount. -/
theorem makeReadonlyRecursive {target : Path} {flags : MountFlags}
    (hattr : ∀ refusal, g.call m.log ⟨m.tree, ⟨readonlyCall target, refusal⟩⟩)
    (hremount : ∀ (m' : Machine) (refusal : Option Errno), m'.tree = m.tree →
      m'.log = m.log ++ [⟨m.tree, ⟨readonlyCall target, some .notImplemented⟩⟩] →
      g.call m'.log
        ⟨m'.tree, ⟨remountBindCall target (flags ||| MountFlags.readonly), refusal⟩⟩)
    (hdone : ∀ m', Accepted m (readonlyCall target) m' → post () m')
    (hfallback : ∀ m₁ m' : Machine, m₁.tree = m.tree →
      m₁.log = m.log ++ [⟨m.tree, ⟨readonlyCall target, some .notImplemented⟩⟩] →
      Accepted m₁ (remountBindCall target (flags ||| MountFlags.readonly)) m' → post () m') :
    Contract g host m (Run.makeReadonlyRecursive target flags) post := by
  unfold Run.makeReadonlyRecursive
  refine .bind (setAttrAt hattr fun fault m₁ hissued _ => ?_)
  cases fault with
  | none => exact .pure (hdone m₁ hissued.accepted)
  | some fault =>
      dsimp only
      split
      · rename_i hfault
        subst hfault
        obtain ⟨htree, hlog⟩ := hissued.refused
        refine .bind (.warn fun m₂ htree₂ hlog₂ _ => ?_)
        rw [← htree₂] at htree
        rw [← hlog₂] at hlog
        exact remountBind (fun refusal => hremount m₂ refusal htree hlog)
          fun m' haccepted => hfallback m₂ m' htree hlog haccepted
      · exact .throw

/-! ## Questions to the mount table -/

theorem inherit {path : Path} {wanted : MountFlags} {post : MountFlags → Machine → Prop}
    (h : ∀ table, host.table m.events = .ok table → post (table.inherit path wanted) m) :
    Contract g host m (Run.inherit path wanted) post :=
  .bind (.table fun table htable _ => .pure (h table htable))

theorem inheritRelaxed {path : Path} {wanted relaxed : MountFlags}
    {post : MountFlags → Machine → Prop}
    (h : ∀ table, host.table m.events = .ok table →
      post (table.inheritRelaxed path wanted relaxed) m) :
    Contract g host m (Run.inheritRelaxed path wanted relaxed) post :=
  .bind (.table fun table htable _ => .pure (h table htable))

theorem isMountPoint {path : Path} {post : Bool → Machine → Prop}
    (h : ∀ table, host.table m.events = .ok table → post (table.isMountPoint path) m) :
    Contract g host m (Run.isMountPoint path) post :=
  .bind (.table fun table htable _ => .pure (h table htable))

/-! ## Controllers -/

section Controllers

variable {root source target dest : Path} {flags : MountFlags}

/-- A controller is bound on a directory that is there or made first. -/
theorem bindController
    (hmake : ∀ tree, m.tree.makeDir dest Run.controllerMode = .ok tree → g.files m.tree tree)
    (hbind : ∀ m', g.Kept m m' → m'.log = m.log → Contract g host m' (do
      Run.bindMount (.at source) (.at dest) false
      Run.remountBind dest (← Run.inherit dest flags)) post) :
    Contract g host m (Run.bindController source dest flags) post := by
  unfold Run.bindController
  refine .bind (.change? (fun tree m₁ hedit _ hlog =>
    ⟨hmake tree hedit, fun hkept => hbind m₁ hkept hlog⟩) fun fault _ hkept => ?_)
  dsimp only
  split
  · exact .bind .throw
  · exact hbind m hkept rfl

theorem addControllers {entries : List (Name × Node)}
    (h : ∀ e ∈ entries, ∀ m', g.Kept m m' →
      Contract g host m' (Run.addController root target flags e.1 e.2) fun _ _ => True) :
    Contract g host m (Run.addControllers root target flags entries) fun _ _ => True := by
  induction entries generalizing m with
  | nil => exact .pure trivial
  | cons e rest ih =>
      have hfirst := h e (by simp) m (.refl g m)
      refine .andThen hfirst fun _ m₁ hm₁ _ => ih fun e he m' hm' => ?_
      exact h e (by simp [he]) m' (hm₁.trans hm')

end Controllers

end Contract

/-! ## Id-mapped binds -/

/-- A file of the helper process is written. -/
def KernelCall.IsWrite (call : KernelCall) : Prop := ∃ file text, call = .write file text

/-- The calls that an id-mapped bind makes. -/
inductive KernelCall.OfMappedBind (source : Path) (target : Spot) : KernelCall → Prop where
  | write (file : MapFile) (text : String) : OfMappedBind source target (.write file text)
  | openTree (flags : AtFlags) : OfMappedBind source target (.openTree source flags)
  | setAttrOf (tree : Path) (flags : AtFlags) (change : AttrChange) :
      OfMappedBind source target (.setAttrOf tree flags change)
  | moveMount (tree : Path) : OfMappedBind source target (.moveMount tree target)

section MappedBind

variable {host : Host} {m : Machine}

theorem uninterrupted_contract {g : Promise} {call : Run (Option Errno)}
    (h : ∀ m', Contract g host m' call fun _ _ => True) :
    Contract g host m (Run.uninterrupted call) fun _ _ => True := by
  have hpersist : ∀ tries m', Contract g host m' (Run.persist call tries) fun _ _ => True := by
    intro tries
    induction tries with
    | zero => exact h
    | succ tries ih =>
        intro m'
        apply Contract.andThen (h m')
        intro refusal m₁ _ _
        split
        · exact ih m₁
        · exact .pure trivial
  exact .bind (.read fun _ => hpersist _ m)

theorem writeMap_contract {file : MapFile} {text : String} :
    Contract (.only KernelCall.IsWrite) host m (Run.writeMap file text) fun _ _ => True :=
  uninterrupted_contract fun _ => .issue (fun _ => ⟨file, text, rfl⟩) fun _ _ _ _ => trivial

theorem writeTable_contract {file : MapFile} {mapping : IdMapping} :
    Contract (.only KernelCall.IsWrite) host m (Run.writeTable file mapping) fun _ _ => True := by
  apply Contract.andThen writeMap_contract
  intro refusal _ _ _
  cases refusal with
  | none => exact .pure trivial
  | some e => exact .throw

theorem denySetgroups_contract :
    Contract (.only KernelCall.IsWrite) host m Run.denySetgroups fun _ _ => True := by
  apply Contract.andThen writeMap_contract
  intro refusal _ _ _
  cases refusal with
  | none => exact .pure trivial
  | some e =>
      dsimp only
      split
      · exact .pure trivial
      · exact .throw

/-- The helper process is only written to. -/
theorem createUserNamespace_contract {mapping : OwnerMapping} :
    Contract (.only KernelCall.IsWrite) host m (Run.createUserNamespace mapping)
      fun _ _ => True := by
  unfold Run.createUserNamespace
  refine .bind (.attempt fun refusal _ _ _ _ => ?_)
  cases refusal with
  | some e => exact .bind .throw
  | none =>
      refine .bind (.attempt fun refusal _ _ _ _ => ?_)
      cases refusal with
      | some e => exact .bind .throw
      | none =>
          apply Contract.andThen writeTable_contract
          intro _ _ _ _
          apply Contract.andThen denySetgroups_contract
          intro _ _ _ _
          apply Contract.andThen writeTable_contract
          intro _ _ _ _
          apply Contract.andThen (uninterrupted_contract fun _ => .attempt fun _ _ _ _ => trivial)
          intro refusal _ _ _
          cases refusal with
          | some e => exact .throw
          | none => exact .pure trivial

/-- A copied tree is put on record with the real path of its root. -/
theorem cloneTree_contract {path : Path} {recursive : Bool} {target : Spot} :
    Contract (.only (KernelCall.OfMappedBind path target)) host m (Run.cloneTree path recursive)
      fun answer m' => ∀ real, answer = .ok real →
        Accepted m (.openTree path (Run.cloneFlags recursive)) m' := by
  unfold Run.cloneTree
  split
  · exact .pure fun real h => by simp at h
  · refine .bind (.attempt fun refusal m₁ htree hlog _ => .bind (.tree fun _ => ?_))
    split
    · refine .bind (.record (.openTree _) fun m₂ htree₂ hlog₂ _ => .pure fun real _ => ?_)
      exact ⟨htree₂.trans htree, by rw [hlog₂, hlog, htree]⟩
    · exact .bind (.record (.openTree _) fun m₂ _ _ _ => .pure fun real h => by simp at h)

theorem setAttrOf_contract {source real : Path} {target : Spot} {recursive : Bool}
    {change : AttrChange} :
    Contract (.only (KernelCall.OfMappedBind source target)) host m
      (Run.setAttrOf real recursive change) fun refusal m' =>
        refusal = none → Accepted m (.setAttrOf real (Run.copiedFlags recursive) change) m' := by
  refine .issue (fun _ => .setAttrOf real _ change) fun refusal m' htree hlog hnone => ?_
  subst hnone
  exact ⟨htree, hlog⟩

theorem attachTree_contract {source real : Path} {target : Spot} :
    Contract (.only (KernelCall.OfMappedBind source target)) host m
      (Run.attachTree real target) fun refusal m' =>
        refusal = none → Accepted m (.moveMount real target) m' := by
  unfold Run.attachTree
  split
  · exact .pure fun h => by simp at h
  · refine .issue (fun _ => .moveMount real) fun refusal m' htree hlog hnone => ?_
    subst hnone
    exact ⟨htree, hlog⟩

/-- **An id-mapped bind.** Behind the calls to the helper process come
those that copy the tree, change its attributes and attach it. -/
theorem bindIdMapped_contract {source : Path} {target : Spot} {recursive : Bool}
    {mapping : OwnerMapping} {set clear : MountAttrs} :
    Contract (.only (KernelCall.OfMappedBind source target)) host m
      (Run.bindIdMapped source target recursive mapping set clear)
      fun _ m' => ∃ m₁ m₂ m₃ real, (Promise.only KernelCall.IsWrite).Kept m m₁
        ∧ Accepted m₁ (.openTree source (Run.cloneFlags recursive)) m₂
        ∧ Accepted m₂ (.setAttrOf real (Run.copiedFlags recursive) (Run.idmapChange set clear)) m₃
        ∧ Accepted m₃ (.moveMount real target) m' := by
  have hmapped : ∀ m', (Promise.only KernelCall.IsWrite).Kept m m' →
      (Promise.only (KernelCall.OfMappedBind source target)).Kept m m' := by
    intro m' hkept
    refine hkept.imp id fun log moment _ hwrite => ?_
    obtain ⟨file, text, hcall⟩ : KernelCall.IsWrite moment.event.call := hwrite
    show KernelCall.OfMappedBind source target moment.event.call
    rw [hcall]
    exact .write file text
  unfold Run.bindIdMapped
  apply Contract.andThen (createUserNamespace_contract.promise hmapped)
  intro _ m₁ _ hhelper
  apply Contract.andThen cloneTree_contract
  intro answer m₂ _ hclone
  cases answer with
  | error e => exact .throw
  | ok real =>
      apply Contract.andThen setAttrOf_contract
      intro refusal m₃ _ hset
      cases refusal with
      | some e => exact .bind .throw
      | none =>
          apply Contract.andThen attachTree_contract
          intro refusal m₄ _ hattach
          cases refusal with
          | some e => exact .throw
          | none =>
              exact .pure ⟨m₁, m₂, m₃, real, hhelper.1, hclone real rfl, hset rfl, hattach rfl⟩

end MappedBind

end ContainerMounts
