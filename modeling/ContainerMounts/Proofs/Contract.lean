/-
ContainerMounts.Proofs.Contract — what an action does to a machine.

A run may stop anywhere, and what it did until then stays done. So a
statement about an action has two halves: what holds of the machine
however the action ends, and what holds of the value it returns.
`Contract g host m act post` says that `act`, started on `m`, keeps the
promise `g`, and that `post` holds of what it returns and of the machine
it leaves.

A `Promise` says how the files may change and which calls may be made
after which others. Keeping one is reflexive and transitive, so contracts
are put together along the text of a program: there is one rule for each
way to combine actions (`Contract.bind`), and one for each primitive
action of `Run`.
-/
import ContainerMounts.Machine

namespace ContainerMounts

variable {α β : Type}

/-- How the action ends, and the machine it leaves. -/
def Run.result (act : Run α) (host : Host) (m : Machine) : Except Error α × Machine :=
  ((act.run host).run).run m

/-- What a run keeps to. -/
structure Promise where
  /-- How the files may change. -/
  files : FileTree → FileTree → Prop
  /-- Which call may follow what is on record. -/
  call : List Moment → Moment → Prop
  refl : ∀ tree, files tree tree
  trans : ∀ {a b c}, files a b → files b c → files a c

/-- The calls on record may be followed by the new ones, in this order. -/
inductive Promise.Calls (g : Promise) : List Moment → List Moment → Prop where
  | nil (log : List Moment) : Calls g log []
  | cons {log : List Moment} {moment : Moment} {rest : List Moment} (h : g.call log moment)
      (hrest : Calls g (log ++ [moment]) rest) : Calls g log (moment :: rest)

/-- From the first machine to the second, the promise was kept. -/
structure Promise.Kept (g : Promise) (m m' : Machine) : Prop where
  files : g.files m.tree m'.tree
  calls : ∃ new, m'.log = m.log ++ new ∧ g.Calls m.log new
    ∧ ∀ moment ∈ new, g.files m.tree moment.tree

/-- The action keeps the promise, however it ends, and `post` holds of what
it returns. -/
structure Contract (g : Promise) (host : Host) (m : Machine) (act : Run α)
    (post : α → Machine → Prop) : Prop where
  kept : g.Kept m (act.result host m).2
  returns : ∀ a, (act.result host m).1 = .ok a → post a (act.result host m).2

/-! ## Promises -/

/-- Anything may be done. -/
def Promise.free : Promise where
  files := fun _ _ => True
  call := fun _ _ => True
  refl := fun _ => trivial
  trans := fun _ _ => trivial

namespace Promise

variable {g : Promise} {m m' m'' : Machine} {log xs ys : List Moment}

theorem Calls.append (hx : g.Calls log xs) (hy : g.Calls (log ++ xs) ys) :
    g.Calls log (xs ++ ys) := by
  induction hx with
  | nil log => simpa using hy
  | cons h hrest ih => exact .cons h (ih (by simpa using hy))

/-- Every new call was allowed when it was made. -/
theorem Calls.at (h : g.Calls log xs) {before after : List Moment} {moment : Moment}
    (heq : xs = before ++ moment :: after) : g.call (log ++ before) moment := by
  induction h generalizing before with
  | nil log => simp at heq
  | @cons log first rest hfirst hrest ih =>
      cases before with
      | nil =>
          obtain ⟨rfl, rfl⟩ : first = moment ∧ rest = after := by simpa using heq
          simpa using hfirst
      | cons b before =>
          obtain ⟨rfl, hrest⟩ : first = b ∧ rest = before ++ moment :: after := by
            simpa using heq
          simpa using ih hrest

theorem Calls.imp {g' : Promise} (h : g.Calls log xs)
    (hcall : ∀ log, ∀ moment ∈ xs, g.call log moment → g'.call log moment) : g'.Calls log xs := by
  induction h with
  | nil log => exact .nil log
  | @cons log moment rest h hrest ih =>
      refine .cons (hcall _ _ (by simp) h) (ih fun log moment hm => hcall log moment ?_)
      exact List.mem_cons_of_mem _ hm

theorem Kept.refl (g : Promise) (m : Machine) : g.Kept m m :=
  ⟨g.refl m.tree, [], by simp, .nil _, by simp⟩

theorem Kept.trans (h : g.Kept m m') (h' : g.Kept m' m'') : g.Kept m m'' := by
  obtain ⟨xs, hxs, hx, hseen⟩ := h.calls
  obtain ⟨ys, hys, hy, hseen'⟩ := h'.calls
  refine ⟨g.trans h.files h'.files, xs ++ ys, ?_, hx.append (hxs ▸ hy), ?_⟩
  · rw [hys, hxs, List.append_assoc]
  · exact List.forall_mem_append.2
      ⟨hseen, fun moment hm => g.trans h.files (hseen' moment hm)⟩

/-- What keeps one promise keeps any that follows from it. -/
theorem Kept.imp {g' : Promise} (h : g.Kept m m') (hfiles : ∀ {a b}, g.files a b → g'.files a b)
    (hcall : ∀ log moment, g.files m.tree moment.tree → g.call log moment →
      g'.call log moment) : g'.Kept m m' := by
  obtain ⟨new, hlog, hnew, hseen⟩ := h.calls
  exact ⟨hfiles h.files, new, hlog,
    hnew.imp fun log moment hm => hcall log moment (hseen moment hm),
    fun moment hm => hfiles (hseen moment hm)⟩

/-- Calls stay as they are. -/
theorem Kept.of_files (hfiles : g.files m.tree m'.tree) (hlog : m'.log = m.log) : g.Kept m m' :=
  ⟨hfiles, [], by simp [hlog], .nil _, by simp⟩

/-- Files and calls stay as they are. -/
theorem Kept.of_eq (htree : m'.tree = m.tree) (hlog : m'.log = m.log) : g.Kept m m' :=
  .of_files (htree ▸ g.refl m.tree) hlog

/-- One more call. -/
theorem Kept.of_call {event : Event} (htree : m'.tree = m.tree)
    (hlog : m'.log = m.log ++ [⟨m.tree, event⟩]) (hcall : g.call m.log ⟨m.tree, event⟩) :
    g.Kept m m' :=
  ⟨htree ▸ g.refl m.tree, [⟨m.tree, event⟩], hlog, .cons hcall (.nil _),
    List.forall_mem_singleton.2 (g.refl m.tree)⟩

theorem Kept.log_grows (h : g.Kept m m') : m.log <+: m'.log := by
  obtain ⟨new, hlog, -⟩ := h.calls
  exact ⟨new, hlog.symm⟩

/-- A call between the two machines was allowed after what was before it. -/
theorem Kept.call_at {before : List Moment} {moment : Moment} (h : g.Kept m m')
    (hlog : before ++ [moment] <+: m'.log) (hnew : m.log.length ≤ before.length) :
    g.call before moment := by
  obtain ⟨new, hm', hcalls, -⟩ := h.calls
  obtain ⟨after, hafter⟩ := hlog
  obtain ⟨middle, rfl⟩ : m.log <+: before := by
    refine List.prefix_of_prefix_length_le ⟨new, hm'.symm⟩ ?_ hnew
    rw [← hafter, List.append_assoc]
    exact List.prefix_append _ _
  have heq : new = middle ++ moment :: after := by
    have happend := hm'.symm.trans hafter.symm
    simp only [List.append_assoc, List.cons_append, List.nil_append] at happend
    exact List.append_cancel_left happend
  exact hcalls.at heq

end Promise

/-! ## Calls and those behind them -/

/-- Every call is in order, given those behind it. -/
def InOrder (p : Moment → List Moment → Prop) : List Moment → Prop
  | [] => True
  | moment :: rest => p moment rest ∧ InOrder p rest

section InOrder

variable {p : Moment → List Moment → Prop} {xs ys : List Moment}

theorem InOrder.append
    (hmono : ∀ moment after more, p moment after → p moment (after ++ more))
    (hx : InOrder p xs) (hy : InOrder p ys) : InOrder p (xs ++ ys) := by
  induction xs with
  | nil => exact hy
  | cons moment rest ih => exact ⟨hmono moment rest ys hx.1, ih hx.2⟩

theorem InOrder.at (h : InOrder p xs) {before after : List Moment} {moment : Moment}
    (heq : xs = before ++ moment :: after) : p moment after := by
  subst heq
  induction before with
  | nil => exact h.1
  | cons first before ih => exact ih h.2

end InOrder

/-! ## How actions end -/

namespace Run

variable (host : Host) (m : Machine)

theorem result_pure (a : α) : (pure a : Run α).result host m = (.ok a, m) := rfl

theorem result_throw (e : Error) : (throw e : Run α).result host m = (.error e, m) := rfl

theorem result_bind (act : Run α) (f : α → Run β) :
    (act >>= f).result host m = match act.result host m with
      | (.ok a, m') => (f a).result host m'
      | (.error e, m') => (.error e, m') := by
  unfold result ReaderT.run ExceptT.run StateT.run
  simp only [bind, ReaderT.bind, ExceptT.bind, ExceptT.mk, StateT.bind]
  cases act host m with
  | mk outcome m' => cases outcome <;> rfl

theorem result_read : (read : Run Host).result host m = (.ok host, m) := rfl

theorem result_tree : Run.tree.result host m = (.ok m.tree, m) := rfl

theorem result_lift (e : Except Error α) : (lift e).result host m = (e, m) := by
  cases e <;> rfl

theorem result_raise (e : Option Error) :
    (raise e).result host m = (match e with | none => .ok () | some e => .error e, m) := by
  cases e <;> rfl

theorem result_change? (edit : FileTree → Except Fault FileTree) :
    (change? edit).result host m = match edit m.tree with
      | .ok tree => (.ok none, { m with tree })
      | .error fault => (.ok (some fault), m) := by
  have h : (change? edit).result host m = (match edit m.tree with
      | .ok tree => (do set { m with tree }; return none : Run (Option Fault))
      | .error fault => return some fault).result host m := rfl
  rw [h]
  cases edit m.tree <;> rfl

theorem result_ask (question : FileTree → Except Fault α) :
    (ask question).result host m = ((question m.tree).mapError .io, m) :=
  result_lift host m _

theorem result_warn (warning : Warning) :
    (warn warning).result host m = (.ok (), { m with warnings := m.warnings ++ [warning] }) := rfl

theorem result_table : table.result host m = (host.table m.events, m) :=
  result_lift host m _

theorem result_attempt (kind : CallKind) :
    (attempt kind).result host m
      = (.ok (host.answer kind (m.attempts.count kind)),
          { m with attempts := m.attempts ++ [kind] }) := rfl

theorem result_record (call : KernelCall) (refusal : Option Errno) :
    (record call refusal).result host m
      = (.ok (), { m with log := m.log ++ [⟨m.tree, ⟨call, refusal⟩⟩] }) := rfl

end Run

/-! ## Combinations of actions -/

namespace Contract

variable {g : Promise} {host : Host} {m : Machine} {act : Run α} {post : α → Machine → Prop}

theorem of_result {a : α} {m' : Machine} (h : act.result host m = (.ok a, m'))
    (hkept : g.Kept m m') (hpost : post a m') : Contract g host m act post := by
  refine ⟨by rw [h]; exact hkept, fun b hb => ?_⟩
  rw [h] at hb ⊢
  obtain rfl : a = b := Except.ok.inj hb
  exact hpost

theorem of_result_error {e : Error} (h : act.result host m = (.error e, m)) :
    Contract g host m act post := by
  refine ⟨by rw [h]; exact .refl g m, fun b hb => ?_⟩
  rw [h] at hb
  simp at hb

theorem pure {a : α} (h : post a m) : Contract g host m (Pure.pure a : Run α) post :=
  of_result (Run.result_pure host m a) (.refl g m) h

theorem throw {e : Error} : Contract g host m (MonadExcept.throw e : Run α) post :=
  of_result_error (Run.result_throw host m e)

/-- One action after the other. -/
theorem bind {f : α → Run β} {post : β → Machine → Prop}
    (h : Contract g host m act fun a m' => g.Kept m m' → Contract g host m' (f a) post) :
    Contract g host m (act >>= f) post := by
  have hkept := h.kept
  have hreturns := h.returns
  constructor
  · rw [Run.result_bind]
    cases hr : act.result host m with
    | mk outcome m' =>
        rw [hr] at hkept hreturns
        cases outcome with
        | ok a => exact hkept.trans (hreturns a rfl hkept).kept
        | error e => exact hkept
  · rw [Run.result_bind]
    cases hr : act.result host m with
    | mk outcome m' =>
        rw [hr] at hkept hreturns
        cases outcome with
        | ok a => exact (hreturns a rfl hkept).returns
        | error e => simp

/-- An action whose contract is known, and what follows it. -/
theorem andThen {f : α → Run β} {middle : α → Machine → Prop} {post : β → Machine → Prop}
    (h : Contract g host m act middle)
    (hnext : ∀ a m', g.Kept m m' → middle a m' → Contract g host m' (f a) post) :
    Contract g host m (act >>= f) post :=
  bind ⟨h.kept, fun a ha hkept => hnext a _ hkept (h.returns a ha)⟩

theorem mono {post' : α → Machine → Prop} (h : Contract g host m act post)
    (hpost : ∀ a m', g.Kept m m' → post a m' → post' a m') : Contract g host m act post' :=
  ⟨h.kept, fun a ha => hpost a _ h.kept (h.returns a ha)⟩

/-- An action may be held against another promise. -/
theorem promise {g' : Promise} (h : Contract g host m act post)
    (hkept : ∀ m', g.Kept m m' → g'.Kept m m') :
    Contract g' host m act fun a m' => g.Kept m m' ∧ post a m' :=
  ⟨hkept _ h.kept, fun a ha => ⟨h.kept, h.returns a ha⟩⟩

/-- The run that the contract is about may be named in it. -/
theorem ran (h : Contract g host m act post) :
    Contract g host m act fun a m' => act.result host m = (.ok a, m') ∧ post a m' :=
  ⟨h.kept, fun a ha => ⟨Prod.ext ha rfl, h.returns a ha⟩⟩

/-! ## Primitive actions -/

theorem read {post : Host → Machine → Prop} (h : post host m) :
    Contract g host m (MonadReader.read : Run Host) post :=
  of_result (Run.result_read host m) (.refl g m) h

theorem tree {post : FileTree → Machine → Prop} (h : post m.tree m) :
    Contract g host m Run.tree post :=
  of_result (Run.result_tree host m) (.refl g m) h

theorem lift {e : Except Error α} (h : ∀ a, e = .ok a → post a m) :
    Contract g host m (Run.lift e) post := by
  cases e with
  | ok a => exact of_result (Run.result_lift host m (.ok a)) (.refl g m) (h a rfl)
  | error e => exact of_result_error (Run.result_lift host m (.error e))

theorem raise {e : Option Error} {post : Unit → Machine → Prop} (h : e = none → post () m) :
    Contract g host m (Run.raise e) post := by
  cases e with
  | none => exact of_result (Run.result_raise host m none) (.refl g m) (h rfl)
  | some e => exact of_result_error (Run.result_raise host m (some e))

theorem ask {question : FileTree → Except Fault α}
    (h : ∀ a, question m.tree = .ok a → post a m) : Contract g host m (Run.ask question) post := by
  have hresult := Run.result_ask host m question
  cases hq : question m.tree with
  | ok a =>
      rw [hq] at hresult
      exact of_result hresult (.refl g m) (h a hq)
  | error fault =>
      rw [hq] at hresult
      exact of_result_error hresult

theorem table {post : MountTable → Machine → Prop}
    (h : ∀ table, host.table m.events = .ok table → post table m) :
    Contract g host m Run.table post := by
  have hresult := Run.result_table host m
  cases ht : host.table m.events with
  | ok table =>
      rw [ht] at hresult
      exact of_result hresult (.refl g m) (h table ht)
  | error e =>
      rw [ht] at hresult
      exact of_result_error hresult

theorem warn {warning : Warning} {post : Unit → Machine → Prop}
    (h : ∀ m', m'.tree = m.tree → m'.log = m.log → post () m') :
    Contract g host m (Run.warn warning) post :=
  of_result (Run.result_warn host m warning) (.of_eq rfl rfl) (h _ rfl rfl)

/-- The files change as the edit says, which the promise has to allow. -/
theorem change? {edit : FileTree → Except Fault FileTree} {post : Option Fault → Machine → Prop}
    (hok : ∀ tree m', edit m.tree = .ok tree → m'.tree = tree → m'.log = m.log →
      g.files m.tree tree ∧ post none m')
    (herror : ∀ fault, edit m.tree = .error fault → post (some fault) m) :
    Contract g host m (Run.change? edit) post := by
  have hresult := Run.result_change? host m edit
  cases he : edit m.tree with
  | ok tree =>
      rw [he] at hresult
      obtain ⟨hfiles, hpost⟩ := hok tree { m with tree } he rfl rfl
      exact of_result hresult (.of_files hfiles rfl) hpost
  | error fault =>
      rw [he] at hresult
      exact of_result hresult (.refl g m) (herror fault he)

theorem attempt {kind : CallKind} {post : Option Errno → Machine → Prop}
    (h : ∀ refusal m', m'.tree = m.tree → m'.log = m.log → post refusal m') :
    Contract g host m (Run.attempt kind) post :=
  of_result (Run.result_attempt host m kind) (.of_eq rfl rfl) (h _ _ rfl rfl)

theorem record {call : KernelCall} {refusal : Option Errno} {post : Unit → Machine → Prop}
    (hcall : g.call m.log ⟨m.tree, ⟨call, refusal⟩⟩)
    (h : ∀ m', m'.tree = m.tree → m'.log = m.log ++ [⟨m.tree, ⟨call, refusal⟩⟩] → post () m') :
    Contract g host m (Run.record call refusal) post :=
  of_result (Run.result_record host m call refusal) (.of_call rfl rfl hcall) (h _ rfl rfl)

/-- A call, which the promise has to allow whatever the answer is. -/
theorem issue {kind : CallKind} {call : KernelCall} {post : Option Errno → Machine → Prop}
    (hcall : ∀ refusal, g.call m.log ⟨m.tree, ⟨call, refusal⟩⟩)
    (h : ∀ refusal m', m'.tree = m.tree → m'.log = m.log ++ [⟨m.tree, ⟨call, refusal⟩⟩] →
      post refusal m') : Contract g host m (Run.issue kind call) post := by
  unfold Run.issue
  refine bind (attempt fun refusal m₁ htree hlog _ => ?_)
  rw [← htree, ← hlog] at hcall h
  exact bind (record (hcall refusal) fun m₂ htree₂ hlog₂ _ => pure (h refusal m₂ htree₂ hlog₂))

end Contract

end ContainerMounts
