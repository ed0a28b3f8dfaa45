/-
ContainerMounts.Proofs.LastTokenWins — the last token of an axis wins.

The tokens of an option list are the words of the axes (`Axis.words`, a table
for each of the ten), the words for the filesystem (`IsData`), and `defaults`,
which says nothing; a list is refused for the first token that is none of these.
`Effect` says what one token does to the options. A whole list then comes down
to little (`MountOptions.parse_eq`): for each axis its last token in the list,
and the words for the filesystem in their order. Tokens may go or change places
as long as that stays (`MountOptions.parse_congr`), so an overridden token may
go, and neighbours of two axes may be swapped.

Main statement: `MountOptions.parse_lastWins`.
-/
import ContainerMounts.Options
import Mathlib.Data.List.Induction

namespace ContainerMounts

/-! ## Axes and their words -/

/-- What an option list sets, one by one. -/
inductive Axis where
  | access
  | atime
  | exec
  | dev
  | suid
  | sync
  | bind
  | idmap
  | copySymlink
  | propagation
  deriving DecidableEq, Repr

namespace Axis

/-- What the axis can be set to. -/
abbrev Value : Axis → Type
  | access => Access
  | atime => AtimeMode
  | exec | dev | suid => Allowance
  | sync => SyncMode
  | bind => BindMode
  | idmap => IdmapMode
  | copySymlink => Bool
  | propagation => Option Propagation

/-- The words of the axis, each with what it sets the axis to. Some of them put
an axis back to its default. -/
def words : (a : Axis) → List (String × a.Value)
  | access =>
      [("ro", .readOnly), ("rw", .readWrite), ("rro", .recursiveReadOnly),
       ("rrw", .recursiveReadWrite)]
  | atime =>
      [("relatime", .relatime), ("strictatime", .strictatime), ("noatime", .noatime),
       ("atime", .unset), ("norelatime", .unset), ("nostrictatime", .unset)]
  | exec => [("exec", .allowed), ("noexec", .denied)]
  | dev => [("dev", .allowed), ("nodev", .denied)]
  | suid => [("suid", .allowed), ("nosuid", .denied)]
  | sync => [("sync", .sync), ("dirsync", .dirsync), ("async", .unset)]
  | bind => [("bind", .bind), ("rbind", .rbind)]
  | idmap => [("idmap", .idmap), ("ridmap", .ridmap)]
  | copySymlink => [("copy-symlink", true)]
  | propagation =>
      [("private", some ⟨.privately, false⟩), ("rprivate", some ⟨.privately, true⟩),
       ("shared", some ⟨.shared, false⟩), ("rshared", some ⟨.shared, true⟩),
       ("slave", some ⟨.slave, false⟩), ("rslave", some ⟨.slave, true⟩),
       ("unbindable", some ⟨.unbindable, false⟩), ("runbindable", some ⟨.unbindable, true⟩)]

/-- The axes, in the order of the fields of `MountOptions`. -/
def all : List Axis :=
  [access, atime, exec, dev, suid, sync, bind, idmap, copySymlink, propagation]

/-- The token is a word of the axis. -/
abbrev Has (a : Axis) (token : String) : Prop := token ∈ a.words.map (·.1)

/-- What the token sets the axis to, if it is one of its words. -/
def value? (a : Axis) (token : String) : Option a.Value := a.words.lookup token

/-- What the options have on the axis. -/
def get : (a : Axis) → MountOptions → a.Value
  | access => MountOptions.access
  | atime => MountOptions.atime
  | exec => MountOptions.exec
  | dev => MountOptions.dev
  | suid => MountOptions.suid
  | sync => MountOptions.sync
  | bind => MountOptions.bind
  | idmap => MountOptions.idmap
  | copySymlink => MountOptions.copySymlink
  | propagation => MountOptions.propagation

/-- The options with this value on the axis. -/
def put : (a : Axis) → a.Value → MountOptions → MountOptions
  | access, v, o => { o with access := v }
  | atime, v, o => { o with atime := v }
  | exec, v, o => { o with exec := v }
  | dev, v, o => { o with dev := v }
  | suid, v, o => { o with suid := v }
  | sync, v, o => { o with sync := v }
  | bind, v, o => { o with bind := v }
  | idmap, v, o => { o with idmap := v }
  | copySymlink, v, o => { o with copySymlink := v }
  | propagation, v, o => { o with propagation := v }

/-- The last token of the axis in the list. -/
def lastToken? (a : Axis) (tokens : List String) : Option String :=
  (tokens.filter (a.Has ·)).getLast?

/-- What the list makes of the axis: what the last token of the axis says, or the
default if there is none. -/
def outcome (a : Axis) (tokens : List String) : a.Value :=
  ((a.lastToken? tokens).bind a.value?).getD (a.get {})

variable {a b : Axis} {t : String} {v : a.Value} {o : MountOptions}
  {before after tokens : List String}

theorem get_put_self : a.get (a.put v o) = v := by cases a <;> rfl

theorem get_put_of_ne (h : b ≠ a) : b.get (a.put v o) = b.get o := by
  cases a <;> cases b <;> first | rfl | exact absurd rfl h

theorem data_put : (a.put v o).data = o.data := by cases a <;> rfl

theorem value?_eq_none : a.value? t = none ↔ ¬ a.Has t := by
  rw [value?, List.lookup_eq_none_iff]
  constructor
  · intro h hword
    obtain ⟨e, he, rfl⟩ := List.mem_map.1 hword
    simpa using h e he
  · intro h e he
    rw [bne_iff_ne]
    rintro rfl
    exact h (List.mem_map_of_mem he)

/-- A word says one thing. -/
theorem value?_word (h : (t, v) ∈ a.words) : a.value? t = some v := by
  have hwords : ∀ e ∈ a.words, a.value? e.1 = some e.2 := by
    cases a <;> decide
  exact hwords (t, v) h

/-- No word belongs to two axes. -/
theorem Has.unique (h : a.Has t) (h' : b.Has t) : a = b := by
  have hwords : ∀ word ∈ a.words.map (·.1), b.Has word → a = b := by
    cases a <;> cases b <;> decide
  exact hwords t h h'

theorem lastToken?_append :
    a.lastToken? (before ++ after) = (a.lastToken? after).or (a.lastToken? before) := by
  rw [lastToken?, List.filter_append, List.getLast?_append]
  rfl

theorem lastToken?_singleton : a.lastToken? [t] = if a.Has t then some t else none := by
  by_cases h : a.Has t <;> simp [lastToken?, h]

theorem lastToken?_eq_none : a.lastToken? tokens = none ↔ ∀ t ∈ tokens, ¬ a.Has t := by
  rw [lastToken?, List.getLast?_eq_none_iff, List.filter_eq_nil_iff]
  exact forall₂_congr fun t _ => by rw [decide_eq_true_iff]

theorem has_of_lastToken? (h : a.lastToken? tokens = some t) : t ∈ tokens ∧ a.Has t := by
  simpa using List.mem_filter.1 (List.mem_of_getLast? h)

/-- One more token sets the axis anew if it is one of its words. -/
theorem outcome_concat : a.outcome (before ++ [t]) = (a.value? t).getD (a.outcome before) := by
  rw [outcome, lastToken?_append, lastToken?_singleton]
  split_ifs with h
  · obtain ⟨v, hv⟩ := Option.ne_none_iff_exists'.1 (mt value?_eq_none.1 (not_not.2 h))
    simp [hv]
  · rw [value?_eq_none.2 h]
    rfl

end Axis

theorem MountOptions.ext_axes {o o' : MountOptions} (haxes : ∀ a : Axis, a.get o = a.get o')
    (hdata : o.data = o'.data) : o = o' := by
  obtain ⟨_, _, _, _, _, _, _, _, _, _, _⟩ := o
  obtain rfl := hdata
  obtain rfl := haxes .access
  obtain rfl := haxes .atime
  obtain rfl := haxes .exec
  obtain rfl := haxes .dev
  obtain rfl := haxes .suid
  obtain rfl := haxes .sync
  obtain rfl := haxes .bind
  obtain rfl := haxes .idmap
  obtain rfl := haxes .copySymlink
  obtain rfl := haxes .propagation
  rfl

/-! ## Tokens that are read -/

/-- The token is handed on to the filesystem: one of two bare words, or a token
that has an equals sign and does not begin with one. -/
def IsData (token : String) : Prop :=
  token = "newinstance" ∨ token = "userxattr"
    ∨ ('=' ∈ token.toList ∧ token.toList.head? ≠ some '=')

instance : DecidablePred IsData := fun token =>
  inferInstanceAs (Decidable (token = "newinstance" ∨ token = "userxattr"
    ∨ ('=' ∈ token.toList ∧ token.toList.head? ≠ some '=')))

/-- The token is known, or it is handed on. -/
def IsOption (token : String) : Prop :=
  token = "defaults" ∨ (∃ a : Axis, a.Has token) ∨ IsData token

/-- What one more token makes of the options. -/
inductive Effect (token : String) (o : MountOptions) : Except Error MountOptions → Prop where
  | nothing (h : token = "defaults") : Effect token o (.ok o)
  | word {a : Axis} {v : a.Value} (h : (token, v) ∈ a.words) : Effect token o (.ok (a.put v o))
  | data (h : IsData token) : Effect token o (.ok { o with data := o.data ++ [token] })
  | refused (h : ¬ IsOption token) :
      Effect token o (.error (.invalidOption token "unknown mount option"))

section Tokens

variable {a : Axis} {t : String} {o : MountOptions}

theorem isData_iff : Setting.isData t = true ↔ IsData t := by
  have hkey : Setting.isKeyValue t = true ↔ '=' ∈ t.toList ∧ t.toList.head? ≠ some '=' := by
    unfold Setting.isKeyValue
    cases t.toList with
    | nil => simp
    | cons c rest =>
        by_cases h : c = '='
        · simp [h]
        · simp [h, Ne.symm h]
  rw [Setting.isData, Bool.or_eq_true, hkey, IsData, ← or_assoc]
  simp [Setting.bareData]

theorem Axis.Has.not_data (h : a.Has t) : ¬ IsData t := by
  have hwords : ∀ word ∈ a.words.map (·.1), ¬ IsData word := by
    cases a <;> decide
  exact hwords t h

theorem Axis.setToken_word {v : a.Value} (h : (t, v) ∈ a.words) :
    MountOptions.setToken o t = .ok (a.put v o) := by
  have hwords : ∀ e ∈ a.words, MountOptions.setToken o e.1 = .ok (a.put e.2 o) := by
    cases a
    all_goals
      repeat refine List.forall_mem_cons.2 ⟨rfl, ?_⟩
      exact fun _ h => absurd h List.not_mem_nil
  exact hwords (t, v) h

/-- A token that is neither `defaults` nor a word is for the filesystem or for
nobody. -/
theorem ofToken?_other (hdefaults : t ≠ "defaults") (hwords : ∀ a : Axis, ¬ a.Has t) :
    Setting.ofToken? t = if Setting.isData t then some (.data t) else none := by
  have hnot : t ∉ Axis.all.flatMap fun a => a.words.map (·.1) := by
    rw [List.mem_flatMap]
    exact fun ⟨a, _, ha⟩ => hwords a ha
  have hname : Propagation.ofName? t = none := by
    unfold Propagation.ofName?
    split
    all_goals first | rfl | exact absurd (by decide) hnot
  unfold Setting.ofToken?
  rw [hname]
  split
  all_goals first | rfl | exact absurd rfl hdefaults | exact absurd (by decide) hnot

theorem setToken_effect (o : MountOptions) (t : String) : Effect t o (o.setToken t) := by
  by_cases hdefaults : t = "defaults"
  · subst hdefaults
    exact .nothing rfl
  by_cases hword : ∃ a : Axis, a.Has t
  · obtain ⟨a, ha⟩ := hword
    obtain ⟨⟨_, v⟩, hv, rfl⟩ := List.mem_map.1 ha
    rw [Axis.setToken_word hv]
    exact .word hv
  · rw [MountOptions.setToken, ofToken?_other hdefaults (not_exists.1 hword)]
    by_cases hdata : IsData t
    · rw [if_pos (isData_iff.2 hdata)]
      exact .data hdata
    · rw [if_neg (mt isData_iff.1 hdata)]
      refine .refused ?_
      rintro (h | h | h)
      · exact hdefaults h
      · exact hword h
      · exact hdata h

variable {out : Except Error MountOptions}

/-- The tokens that have an effect are the options. -/
theorem Effect.isOk (h : Effect t o out) : out.isOk = true ↔ IsOption t := by
  cases h with
  | nothing h => exact iff_of_true rfl (.inl h)
  | word h => exact iff_of_true rfl (.inr (.inl ⟨_, List.mem_map_of_mem h⟩))
  | data h => exact iff_of_true rfl (.inr (.inr h))
  | refused h => exact iff_of_false nofun h

theorem Effect.eq_error (h : Effect t o out) (hrefused : ¬ IsOption t) :
    out = .error (.invalidOption t "unknown mount option") := by
  have hnot := mt h.isOk.1 hrefused
  cases h with
  | refused => rfl
  | _ => exact absurd rfl hnot

instance : DecidablePred IsOption := fun t => decidable_of_iff _ (setToken_effect {} t).isOk

end Tokens

/-! ## Lists of tokens -/

namespace MountOptions

/-- What a list of options is read as: the outcome of each axis, and the words
for the filesystem. -/
def outcome (tokens : List String) : MountOptions where
  access := Axis.access.outcome tokens
  atime := Axis.atime.outcome tokens
  exec := Axis.exec.outcome tokens
  dev := Axis.dev.outcome tokens
  suid := Axis.suid.outcome tokens
  sync := Axis.sync.outcome tokens
  bind := Axis.bind.outcome tokens
  idmap := Axis.idmap.outcome tokens
  copySymlink := Axis.copySymlink.outcome tokens
  propagation := Axis.propagation.outcome tokens
  data := tokens.filter (IsData ·)

/-- The first token that is no option. -/
def firstRefused? (tokens : List String) : Option String := tokens.find? (¬ IsOption ·)

variable {tokens tokens' : List String} {t : String} {o : MountOptions}

theorem get_outcome (a : Axis) : a.get (outcome tokens) = a.outcome tokens := by
  cases a <;> rfl

/-- A token that is a word of no axis can only add to the words for the
filesystem. -/
theorem outcome_concat_other (h : ∀ a : Axis, ¬ a.Has t) :
    outcome (tokens ++ [t]) =
      { outcome tokens with data := (outcome tokens).data ++ [t].filter (IsData ·) } := by
  refine ext_axes (fun a => ?_) (List.filter_append _ _)
  rw [get_outcome, Axis.outcome_concat, Axis.value?_eq_none.2 (h a), Option.getD_none,
    ← get_outcome]
  cases a <;> rfl

/-- A word sets its axis and leaves the others. -/
theorem outcome_concat_word {a : Axis} {v : a.Value} (h : (t, v) ∈ a.words) :
    outcome (tokens ++ [t]) = a.put v (outcome tokens) := by
  have ha : a.Has t := List.mem_map_of_mem h
  refine ext_axes (fun b => ?_) ?_
  · rw [get_outcome, Axis.outcome_concat]
    by_cases hb : b = a
    · subst hb
      rw [Axis.get_put_self, Axis.value?_word h, Option.getD_some]
    · have hnone : b.value? t = none := Axis.value?_eq_none.2 fun hhas => hb (hhas.unique ha)
      rw [Axis.get_put_of_ne hb, get_outcome, hnone, Option.getD_none]
  · simp [Axis.data_put, outcome, ha.not_data]

/-- One more token has its effect on what the others were read as. -/
theorem outcome_concat (h : IsOption t) :
    (outcome tokens).setToken t = .ok (outcome (tokens ++ [t])) := by
  have heffect := setToken_effect (outcome tokens) t
  generalize (outcome tokens).setToken t = out at heffect
  cases heffect with
  | nothing hdefaults =>
      subst hdefaults
      rw [outcome_concat_other fun a => by cases a <;> decide]
      simp [IsData]
  | word hword => rw [outcome_concat_word hword]
  | data hdata =>
      rw [outcome_concat_other fun a ha => ha.not_data hdata]
      simp [hdata]
  | refused hrefused => exact absurd h hrefused

theorem firstRefused?_append :
    firstRefused? (tokens ++ tokens') = (firstRefused? tokens).or (firstRefused? tokens') :=
  List.find?_append

/-- **What an option list is read as.** -/
theorem parse_eq (tokens : List String) :
    parse tokens = match firstRefused? tokens with
      | some t => .error (.invalidOption t "unknown mount option")
      | none => .ok (outcome tokens) := by
  induction tokens using List.reverseRecOn with
  | nil => rfl
  | append_singleton tokens t ih =>
      have hconcat : parse (tokens ++ [t]) = parse tokens >>= (setToken · t) := by
        rw [parse, List.foldlM_append]
        simp [parse]
      rw [hconcat, ih, firstRefused?_append]
      cases firstRefused? tokens with
      | some first => rfl
      | none =>
          by_cases h : IsOption t
          · have hlast : firstRefused? [t] = none := by simp [firstRefused?, h]
            rw [hlast]
            exact outcome_concat h
          · have hlast : firstRefused? [t] = some t := by simp [firstRefused?, h]
            rw [hlast]
            exact (setToken_effect (outcome tokens) t).eq_error h

theorem firstRefused?_eq_none : firstRefused? tokens = none ↔ ∀ t ∈ tokens, IsOption t := by
  simp [firstRefused?]

theorem firstRefused?_eq_some : firstRefused? tokens = some t ↔ ∃ before after,
    tokens = before ++ t :: after ∧ (∀ s ∈ before, IsOption s) ∧ ¬ IsOption t := by
  rw [firstRefused?, List.find?_eq_some_iff_append]
  constructor
  · rintro ⟨hrefused, before, after, rfl, hbefore⟩
    exact ⟨before, after, rfl, by simpa using hbefore, by simpa using hrefused⟩
  · rintro ⟨before, after, rfl, hbefore, hrefused⟩
    exact ⟨by simpa using hrefused, before, after, rfl, by simpa using hbefore⟩

theorem parse_eq_ok :
    parse tokens = .ok o ↔ (∀ t ∈ tokens, IsOption t) ∧ o = outcome tokens := by
  rw [parse_eq, ← firstRefused?_eq_none]
  cases firstRefused? tokens <;> simp [eq_comm]

theorem parse_eq_error {e : Error} : parse tokens = .error e ↔ ∃ t,
    firstRefused? tokens = some t ∧ e = .invalidOption t "unknown mount option" := by
  rw [parse_eq]
  cases firstRefused? tokens <;> simp [eq_comm]

/-- What is read depends on the first token that is no option, on the outcome of
each axis, and on the words for the filesystem. -/
theorem parse_congr (hrefused : firstRefused? tokens = firstRefused? tokens')
    (haxes : ∀ a : Axis, a.lastToken? tokens = a.lastToken? tokens')
    (hdata : tokens.filter (IsData ·) = tokens'.filter (IsData ·)) :
    parse tokens = parse tokens' := by
  have houtcome : outcome tokens = outcome tokens' := by
    refine ext_axes (fun a => ?_) hdata
    rw [get_outcome, get_outcome, Axis.outcome, Axis.outcome, haxes]
  rw [parse_eq, parse_eq, hrefused, houtcome]

/-- A list is read as these options. -/
structure Reads (tokens : List String) (o : MountOptions) : Prop where
  /-- An axis has what its last token says, or its default. -/
  axis : ∀ a : Axis, a.get o = a.outcome tokens
  copySymlink : o.copySymlink = true ↔ "copy-symlink" ∈ tokens
  /-- The words for the filesystem are kept, in order. -/
  data : o.data = tokens.filter (IsData ·)

theorem reads_outcome : Reads tokens (outcome tokens) := by
  refine ⟨fun a => get_outcome a, ?_, rfl⟩
  change Axis.copySymlink.outcome tokens = true ↔ "copy-symlink" ∈ tokens
  rw [Axis.outcome]
  cases hlast : Axis.copySymlink.lastToken? tokens with
  | none =>
      have hnot := Axis.lastToken?_eq_none.1 hlast "copy-symlink"
      exact iff_of_false nofun fun hmem => hnot hmem (by decide)
  | some t =>
      obtain ⟨hmem, hhas⟩ := Axis.has_of_lastToken? hlast
      obtain rfl : t = "copy-symlink" := List.mem_singleton.1 hhas
      exact iff_of_true rfl hmem

section Places

variable {before between after : List String} {later next : String}

/-- A token goes without trace if a later one is of the same axis. -/
theorem parse_overridden {a : Axis} (ht : a.Has t) (hlater : a.Has later) :
    parse (before ++ t :: (between ++ later :: after))
      = parse (before ++ (between ++ later :: after)) := by
  have hoption : IsOption t := .inr (.inl ⟨a, ht⟩)
  refine parse_congr ?_ (fun b => ?_) ?_
  · simp [firstRefused?, hoption]
  · have hsame : b.lastToken? ([t] ++ (between ++ later :: after))
        = b.lastToken? (between ++ later :: after) := by
      rw [Axis.lastToken?_append]
      cases hlast : b.lastToken? (between ++ later :: after) with
      | some last => rfl
      | none =>
          have hnot : ¬ b.Has t := fun h =>
            Axis.lastToken?_eq_none.1 hlast later (by simp) (h.unique ht ▸ hlater)
          rw [Axis.lastToken?_singleton, if_neg hnot]
          rfl
    rw [Axis.lastToken?_append, Axis.lastToken?_append, ← hsame]
    rfl
  · simp [ht.not_data]

/-- Neighbours may change places if no axis has both and not both are for the
filesystem. -/
theorem parse_swapped (ht : IsOption t) (hnext : IsOption next)
    (haxes : ∀ a : Axis, a.Has t → ¬ a.Has next) (hdata : IsData t → ¬ IsData next) :
    parse (before ++ t :: next :: after) = parse (before ++ next :: t :: after) := by
  refine parse_congr ?_ (fun a => ?_) ?_
  · simp [firstRefused?, ht, hnext]
  · have hpair : a.lastToken? [t, next] = a.lastToken? [next, t] := by
      by_cases h : a.Has t
      · simp [Axis.lastToken?, h, haxes a h]
      · simp [Axis.lastToken?, h]
    have hrest : ∀ pair : List String, a.lastToken? (before ++ (pair ++ after))
        = ((a.lastToken? after).or (a.lastToken? pair)).or (a.lastToken? before) := by
      intro pair
      rw [Axis.lastToken?_append, Axis.lastToken?_append]
    calc
      a.lastToken? (before ++ t :: next :: after)
        = ((a.lastToken? after).or (a.lastToken? [t, next])).or (a.lastToken? before) :=
          hrest [t, next]
      _ = a.lastToken? (before ++ next :: t :: after) := by rw [hpair, ← hrest]; rfl
  · by_cases h : IsData t
    · simp [h, hdata h]
    · simp [List.filter_cons, h]

end Places

/-- **The last token of an axis wins.** A list is read if each of its tokens is an
option; otherwise the error names the first that is none. What is read has, on
each axis, what the last token of the axis says, and its default if there is
none. So a token may go if a later one is of its axis, and neighbours of two
axes may change places: the list is read the same, or refused for the same
token. -/
theorem parse_lastWins :
    (∀ tokens, (∃ o, parse tokens = .ok o) ↔ ∀ t ∈ tokens, IsOption t)
    ∧ (∀ tokens e, parse tokens = .error e ↔ ∃ before t after, tokens = before ++ t :: after
        ∧ (∀ s ∈ before, IsOption s) ∧ ¬ IsOption t
        ∧ e = .invalidOption t "unknown mount option")
    ∧ (∀ tokens o, parse tokens = .ok o → Reads tokens o)
    ∧ (∀ (a : Axis) before t between later after, a.Has t → a.Has later →
        parse (before ++ t :: (between ++ later :: after))
          = parse (before ++ (between ++ later :: after)))
    ∧ (∀ (a b : Axis) before t next after, a ≠ b → a.Has t → b.Has next →
        parse (before ++ t :: next :: after) = parse (before ++ next :: t :: after)) := by
  refine ⟨fun tokens => ?_, fun tokens e => ?_, fun tokens o h => ?_, ?_, ?_⟩
  · simp [parse_eq_ok]
  · rw [parse_eq_error]
    constructor
    · rintro ⟨t, hfirst, rfl⟩
      obtain ⟨before, after, htokens, hbefore, hrefused⟩ := firstRefused?_eq_some.1 hfirst
      exact ⟨before, t, after, htokens, hbefore, hrefused, rfl⟩
    · rintro ⟨before, t, after, htokens, hbefore, hrefused, rfl⟩
      exact ⟨t, firstRefused?_eq_some.2 ⟨before, after, htokens, hbefore, hrefused⟩, rfl⟩
  · obtain ⟨-, rfl⟩ := parse_eq_ok.1 h
    exact reads_outcome
  · exact fun a before t between later after => parse_overridden
  · intro a b before t next after hne ht hnext
    refine parse_swapped (.inr (.inl ⟨a, ht⟩)) (.inr (.inl ⟨b, hnext⟩)) (fun c hc hc' => ?_)
      fun hdata => absurd hdata ht.not_data
    exact hne ((ht.unique hc).trans (hc'.unique hnext))

/-- Axes that are set twice, set back and set once, with words for the filesystem
between them; and a list with two tokens that are no options. -/
theorem parse_lastWins_mixed :
    let tokens := ["ro", "size=1m", "relatime", "copy-symlink", "rw", "nostrictatime",
      "newinstance"]
    let o : MountOptions :=
      { access := .readWrite, copySymlink := true, data := ["size=1m", "newinstance"] }
    parse tokens = .ok o ∧ Reads tokens o
      ∧ parse ["ro", "=oops", "bogus"] = .error (.invalidOption "=oops" "unknown mount option")
      ∧ parse ["ro", "sync", "rw"] = parse ["sync", "rw"]
      ∧ parse ["ro", "sync"] = parse ["sync", "ro"] := by
  intro tokens o
  have hparse : parse tokens = .ok o := rfl
  obtain ⟨-, hrefused, hreads, hoverridden, hswapped⟩ := parse_lastWins
  refine ⟨hparse, hreads tokens o hparse, ?_, ?_, ?_⟩
  · exact (hrefused _ _).2 ⟨["ro"], "=oops", ["bogus"], rfl, by decide, by decide, rfl⟩
  · exact hoverridden .access [] "ro" ["sync"] "rw" [] (by decide) (by decide)
  · exact hswapped .access .sync [] "ro" "sync" [] (by decide) (by decide) (by decide)

end MountOptions

end ContainerMounts
