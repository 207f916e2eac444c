import GtuOs.FatFileSystem.Keeping

/-!
# Passwords

What a query makes of what is at the end of its path (`Answered`). After an accepted `addpw`, the
file requires the password of the last one, and no command takes effect without it, as long as
no `write` passes the checks (`commands_requires`): a file that is overwritten requires none any more
(`not_requires`).
-/

namespace GtuOs.FatFileSystem

variable {q : Query} {now : Stamp} {output : Output} {accepted : Bool} {path : List CString} {t t' : Tree}

/-- What is at the end of the path of a query, before and after. -/
inductive Answered (q : Query) (now : Stamp) : Option Node → Option Node → Output → Bool → Prop
  | refused {o : Option Node} {output : Output} : (∀ linuxFile, output ≠ .copied linuxFile) →
    Answered q now o o output false
  | listed {o : Option Node} {listings : List Listing} : q = .dir → Answered q now o o (.listed listings) true
  | copied {r : Record} {l : List ℕ} {content : List UInt8} {pw : Option CString} {linuxFile : LinuxFile} :
    q = .read pw → r.entry.Opens pw →
    Answered q now (some (.file r l content)) (some (.file r l content)) (.copied linuxFile) true
  | changed {r r' : Record} {l : List ℕ} {content : List UInt8} {c : Change} {pw : Option CString}
    {e' : DirectoryEntry} : q = .change c pw → r.entry.Opens pw → c.apply r.entry = some e' →
    r'.entry = e'.updateEntryTime now →
    Answered q now (some (.file r l content)) (some (.file r' l content)) .none true

theorem Walks.answered (h : Walks q now path t t' output accepted) :
    Answered q now (t.resolve path) (t'.resolve path) output accepted := by
  cases h with
  | refused => exact .refused (by simp)
  | listed hq _ => exact .listed hq
  | copied hq hfind hopens _ =>
    rw [Tree.resolve, hfind]
    exact .copied hq hopens
  | @changed name t₁ t₂ r r' l content c pw e' hq hnone hfor hopens happly hentry hname =>
    have hbefore : (t₁ ++ (Node.file r l content).cons t₂).find name = some (.file r l content) :=
      Tree.find_split (n := .file r l content) hnone hfor t₂
    have hafter : (t₁ ++ (Node.file r' l content).cons t₂).find name = some (.file r' l content) :=
      Tree.find_split (n := .file r' l content) hnone (hfor.change happly hentry hname) t₂
    rw [Tree.resolve, Tree.resolve, hbefore, hafter]
    exact .changed hq hopens happly hentry

/-- What a query comes to. -/
theorem Moves.answered {P : Outcome → Prop} {clock : ℕ → Stamp} {sb sb' : Superblock}
    (h : Moves P clock (.ask q path) t sb t' sb' output accepted) :
    Answered q (clock 0) (t.resolve path) (t'.resolve path) output accepted := by
  cases h with
  | ask halong =>
    exact Tree.ends_of_along (R := fun o o' => Answered q (clock 0) o o' output accepted) halong (fun _ _ _ hfor => hfor)
      fun _ _ _ hwalks => hwalks.answered
  | root hout => exact .refused hout

/-! ## The password of a file -/

/-- The password given with a command. -/
def Command.password : Command → Option CString
  | .make (.file _ pw) _ => pw
  | .ask (.read pw) _ => pw
  | .ask (.change _ pw) _ => pw
  | _ => none

/-- The password that `addpw` sets. -/
def Command.newPassword : Command → Option CString
  | .ask (.change (.addpw newPwd) _) _ => some newPwd
  | _ => none

theorem Command.eq_of_newPassword {c : Command} {newPwd : CString} (h : c.newPassword = some newPwd) :
    ∃ pw path, c = .ask (.change (.addpw newPwd) pw) path := by
  cases c with
  | make target path => cases h
  | ask q path =>
    cases q with
    | dir | read pw => cases h
    | change ch pw =>
      cases ch with
      | chmod mods => cases h
      | addpw newPwd' =>
        obtain rfl : newPwd' = newPwd := Option.some.inj h
        exact ⟨pw, path, rfl⟩

instance (path : List CString) : Decidable (IsRoot path) :=
  decidable_of_iff (path.head?.any fun name => name.chars = [slash]) (by simp [IsRoot, Option.any_eq_true])

instance : (c : Command) → Decidable c.Goes
  | .make _ path => inferInstanceAs (Decidable (path ≠ []))
  | .ask _ path => inferInstanceAs (Decidable (path ≠ [] ∧ ¬IsRoot path))

instance (e : Event) : Decidable e.Accepted := inferInstanceAs (Decidable (_ ∧ _))

/-- The password that the last accepted `addpw` on the path has set. -/
def lastPassword (path : List CString) : Monitor Image Event (Option CString) where
  init _ last := last = none
  next last _ e _ := if e.command.path = path ∧ e.Accepted then e.command.newPassword.or last else last

namespace Image

/-- The path leads to a file that requires this password. -/
def Requires (image : Image) (path : List CString) (s : CString) : Prop :=
  ∃ e, image.Resolves path e ∧ e.IsFile ∧ ∀ pw, e.Opens pw ↔ pw = some s

/-- No `write` passes the checks of what it would overwrite. -/
def SparesContents (image : Image) : Command → Prop
  | .make (.file (some _) pw) path => ∀ e, image.Resolves path e → e.Opens pw →
    ¬checkAttribute e.attributes writePermission
  | _ => True

end Image

/-- The command copies data out of the file, or changes its content, its attributes or its password. -/
def Event.TakesEffect (e : Event) (image image' : Image) (path : List CString) : Prop :=
  (∃ linuxFile, e.output = .copied linuxFile) ∨ ∃ d content, image.HasFile path d content ∧
    ¬∃ d', image'.HasFile path d' content ∧ d'.attributes = d.attributes ∧ d'.pw = d.pw

/-- The path leads to a file that requires this password. -/
def Tree.Requires (t : Tree) (path : List CString) (s : CString) : Prop :=
  ∃ r l content, t.resolve path = some (.file r l content) ∧ ∀ pw, r.entry.Opens pw ↔ pw = some s

theorem DirectoryEntry.opens_congr {e e' : DirectoryEntry} {pw : Option CString}
    (hattr : checkAttribute e'.attributes passwordEnabled = checkAttribute e.attributes passwordEnabled)
    (hpw : e'.pw = e.pw) : e'.Opens pw ↔ e.Opens pw := by
  have hbytes : e'.pwBytes = e.pwBytes := congrArg List.ofFn hpw
  rw [Opens, Opens, password, password, hattr, hbytes]

/-- A file after `addpw`. -/
theorem Change.opens_addpw {e e' : DirectoryEntry} {newPwd : CString} (h : (addpw newPwd).apply e = some e')
    (pw : Option CString) : e'.Opens pw ↔ pw = some newPwd := by
  rw [apply] at h
  split_ifs at h with hlen
  obtain rfl := Option.some.inj h
  have hlt : newPwd.chars.length < passwordSize := by
    simp only [passwordSize] at hlen ⊢
    omega
  exact (DirectoryEntry.opens_copyPassword hlt).2 pw

namespace Moves

variable {P : Outcome → Prop} {clock : ℕ → Stamp} {c : Command} {sb sb' : Superblock} {s : CString}

/-- A command on the path of a file: it stays, or is changed, and the command is accepted. -/
theorem file_cases {r : Record} {l : List ℕ} {content : List UInt8}
    (h : Moves P clock c t sb t' sb' output accepted) (hfile : t.resolve c.path = some (.file r l content)) :
    (t'.resolve c.path = some (.file r l content) ∧
        ∀ linuxFile, output = .copied linuxFile → r.entry.Opens c.password) ∨
      ∃ n', t'.resolve c.path = some n' ∧ Edits (clock 0) c (.file r l content) n' ∧ accepted = true := by
  cases c with
  | make target path =>
    generalize hnode : Node.file r l content = n at hfile ⊢
    cases h with
    | @make _ _ _ _ _ res out _ halong =>
      -- Only where the path ends the node may be another one afterwards.
      have hends := Tree.ends_of_along (R := fun o o' => o = some n → o' = some n ∨
        ∃ n', o' = some n' ∧ Edits (clock 0) (.make target path) n n' ∧ out.accepted = true) halong
        (fun k r name hfor => hfor.mkdirTouch res clock k) fun path' t t' hacts hn => by
          cases hacts with
          | refused _ | unopened _ | miscounted _ => exact .inl hn
          | directory _ hnone _ _ _ | file _ hnone _ _ _ => cases hnone.symm.trans hn
          | @overwritten name t₁ t₂ n₀ r' _ _ htarget hnone hfor hopens hwrite hfor' _ _ =>
            subst htarget
            obtain rfl := Option.some.inj ((Tree.find_split hnone hfor t₂).symm.trans hn)
            exact .inr ⟨_, Tree.find_split (n := .file r' n₀.chain _) hnone hfor' t₂, .overwritten hopens hwrite, rfl⟩
      exact (hends hfile).imp (fun hn => ⟨hn, by simp⟩) id
  | ask q path =>
    have hanswered := h.answered
    have hfile' : t.resolve path = some (.file r l content) := hfile
    rw [hfile'] at hanswered
    generalize hres : t'.resolve path = o at hanswered
    cases hanswered with
    | refused hout => exact .inl ⟨hres, fun linuxFile heq => absurd heq (hout linuxFile)⟩
    | listed _ => exact .inl ⟨hres, by simp⟩
    | copied hq hopens =>
      subst hq
      exact .inl ⟨hres, fun _ _ => hopens⟩
    | changed hq hopens happly hentry =>
      subst hq
      exact .inr ⟨_, hres, .changed hopens happly hentry, rfl⟩

/-- An accepted `addpw`. -/
theorem requires_addpw {newPwd : CString} (h : Moves P clock c t sb t' sb' output true)
    (hc : c.newPassword = some newPwd) : t'.Requires c.path newPwd := by
  obtain ⟨pw, path, rfl⟩ := Command.eq_of_newPassword hc
  have hanswered := h.answered
  generalize hacc : true = accepted at hanswered
  generalize t.resolve path = o at hanswered
  generalize hres : t'.resolve path = o' at hanswered
  cases hanswered with
  | refused _ => cases hacc
  | listed hq | copied hq _ => cases hq
  | changed hq _ happly hentry =>
    obtain ⟨rfl, rfl⟩ := Query.change.inj hq
    exact ⟨_, _, _, hres, fun pw => by rw [hentry]; exact Change.opens_addpw happly pw⟩

/-- The password stays, unless the command sets another one. -/
theorem requires {image : Image} {l : List ℕ} (hmoves : Moves P clock c t sb t' sb' output accepted)
    (h : image.HasTree l t) (hspares : image.SparesContents c) (hreq : t.Requires c.path s)
    (hnew : accepted = true → c.newPassword = none) : t'.Requires c.path s := by
  obtain ⟨r, l', content, hfile, hopens⟩ := hreq
  rcases hmoves.file_cases hfile with ⟨hres, -⟩ | ⟨n', hres, hedits, hacc⟩
  · exact ⟨r, l', content, hres, hopens⟩
  generalize hnode : Node.file r l' content = n at hedits hfile
  cases hedits with
  | overwritten hopens' hwrite =>
    exact absurd hwrite (hspares _ (h.resolves_iff.2 ⟨_, hfile, rfl⟩) hopens')
  | @changed _ r r' l' _ c pw e' _ happly hentry =>
    obtain ⟨rfl, rfl, rfl⟩ := Node.file.inj hnode
    cases c with
    | addpw newPwd => cases hnew hacc
    | chmod mods =>
      obtain ⟨hpw, hattr⟩ := DirectoryEntry.setPermissionGivenFromCommand_keeps happly
      refine ⟨_, _, _, hres, fun pw => ?_⟩
      rw [hentry, ← hopens]
      exact DirectoryEntry.opens_congr (hattr _ (.inl rfl)) hpw

/-- What takes effect has been given the password. -/
theorem password_eq {image image' : Image} {l l' : List ℕ} {e : Event}
    (hmoves : Moves P e.clock e.command t sb t' sb' e.output accepted) (h : image.HasTree l t)
    (h' : image'.HasTree l' t') (hreq : t.Requires e.command.path s)
    (heffect : e.TakesEffect image image' e.command.path) : e.command.password = some s := by
  obtain ⟨r, l₁, content, hfile, hopens⟩ := hreq
  rcases hmoves.file_cases hfile with ⟨hres, hcopied⟩ | ⟨n', hres, hedits, -⟩
  · rcases heffect with ⟨linuxFile, hout⟩ | ⟨d, content', hhas, hnot⟩
    · exact (hopens _).1 (hcopied linuxFile hout)
    · -- The file is as before.
      obtain ⟨r', l₂, hfile', rfl⟩ := h.hasFile_iff.1 hhas
      obtain ⟨rfl, rfl, rfl⟩ := Node.file.inj (Option.some.inj (hfile'.symm.trans hfile))
      exact absurd ⟨_, h'.hasFile_iff.2 ⟨_, _, hres, rfl⟩, rfl, rfl⟩ hnot
  · generalize e.command = c at hedits
    generalize hnode : Node.file r l₁ content = n at hedits
    cases hedits with
    | overwritten hopens' _ =>
      subst hnode
      exact (hopens _).1 hopens'
    | changed hopens' _ _ =>
      obtain ⟨rfl, rfl, rfl⟩ := Node.file.inj hnode
      exact (hopens _).1 hopens'

end Moves

/-! ## Runs -/

theorem Tree.Requires.image {image : Image} {l : List ℕ} {s : CString} (hreq : t.Requires path s)
    (h : image.HasTree l t) : image.Requires path s := by
  obtain ⟨r, l', content, hfile, hopens⟩ := hreq
  have hheld := h.hasTree.heldBy.resolve hfile
  exact ⟨_, h.resolves_iff.2 ⟨_, hfile, rfl⟩, hheld.isFile_iff.2 ⟨_, _, _, rfl⟩, hopens⟩

/-- The commands reach no defect; after `addpw` on the path, they are commands on it, and no `write` passes the
    checks. -/
def OnlyOn (path : List CString) (p : Image × Option CString) (e : Event) : Prop :=
  p.1.Harmless e.command ∧ (p.2.isSome → e.command.path = path ∧ p.1.SparesContents e.command)

/-- The run: the password that has been set last is required. -/
theorem Image.HasTree.requires_steps {image : Image} {l : List ℕ} (h : image.HasTree l t) (hsingle : t.Single)
    {p : Image × Option CString}
    (hsteps : ((commands.monitored (lastPassword path)).restrict (OnlyOn path)).Steps (image, none) p) :
    ∃ t', p.1.HasTree l t' ∧ t'.Single ∧ ∀ s, p.2 = some s → path ≠ [] ∧ ¬IsRoot path ∧ t'.Requires path s := by
  induction hsteps with
  | refl => exact ⟨t, h, hsingle, by simp⟩
  | @step p p' e _ hstep ih =>
    obtain ⟨t₁, h₁, hsingle₁, hreq⟩ := ih
    obtain ⟨⟨hharmless, honly⟩, hstep, hlast⟩ := hstep
    obtain ⟨t₂, accepted, hmoves, h₂, hsingle₂, hprinted⟩ := h₁.step hsingle₁ hharmless hstep
    refine ⟨t₂, h₂, hsingle₂, fun s hs => ?_⟩
    -- Where the password is not set, it has been required before.
    have hkept : p.2 = some s → (accepted = true → e.command.newPassword = none) →
        path ≠ [] ∧ ¬IsRoot path ∧ t₂.Requires path s := by
      intro hlast' hnew
      obtain ⟨hne, hroot, hreq⟩ := hreq s hlast'
      obtain ⟨rfl, hspares⟩ := honly (by rw [hlast']; rfl)
      exact ⟨hne, hroot, hmoves.requires h₁ hspares hreq hnew⟩
    have hnext : p'.2 = if e.command.path = path ∧ e.Accepted then e.command.newPassword.or p.2 else p.2 := hlast
    rw [hnext] at hs
    by_cases hset : e.command.path = path ∧ e.Accepted
    · rw [if_pos hset] at hs
      cases hnew : e.command.newPassword with
      | none =>
        rw [hnew] at hs
        exact hkept hs fun _ => hnew
      | some newPwd =>
        rw [hnew] at hs
        obtain rfl : newPwd = s := Option.some.inj hs
        obtain ⟨rfl, hgoes, hempty⟩ := hset
        obtain rfl : accepted = true := (hprinted hgoes).1 hempty
        obtain ⟨pw, path, hc⟩ := Command.eq_of_newPassword hnew
        have hreq := hmoves.requires_addpw hnew
        rw [hc] at hgoes hreq ⊢
        exact ⟨hgoes.1, hgoes.2, hreq⟩
    · rw [if_neg hset] at hs
      refine hkept hs fun hacc => ?_
      obtain ⟨hne, hroot, -⟩ := hreq s hs
      obtain ⟨rfl, -⟩ := honly (by rw [hs]; rfl)
      rw [Option.eq_none_iff_forall_ne_some]
      intro newPwd hnew
      obtain ⟨pw, path, hc⟩ := Command.eq_of_newPassword hnew
      have hgoes : e.command.Goes := by
        rw [hc] at hne hroot ⊢
        exact ⟨hne, hroot⟩
      exact hset ⟨rfl, hgoes, (hprinted hgoes).2 hacc⟩

/-- **Passwords.** In a run of commands that reach no defect, a file requires the password of the last accepted
    `addpw`, as long as no `write` passes the checks, and no command takes effect without it. -/
theorem commands_requires {g : Garbage} {now : Stamp} {is1024 : Bool} (hg : g.Clean is1024) {image : Image}
    {s : CString}
    (hsteps : ((commands.monitored (lastPassword path)).restrict (OnlyOn path)).Steps
      (createFilesystem g now is1024, none) (image, some s)) :
    image.Requires path s ∧ ∀ e image', e.command.path = path → image.Harmless e.command →
      commands.step image e image' → e.TakesEffect image image' path → e.command.password = some s := by
  obtain ⟨l, h₀⟩ := hasTree_createFilesystem hg now
  obtain ⟨t, h, hsingle, hreq⟩ := h₀.requires_steps trivial hsteps
  obtain ⟨-, -, hreq⟩ := hreq s rfl
  refine ⟨hreq.image h, fun e image' hpath hharmless hstep heffect => ?_⟩
  obtain ⟨t', accepted, hmoves, h', -⟩ := h.step hsingle hharmless hstep
  subst hpath
  exact hmoves.password_eq h h' hreq heffect

/-! ### One file -/

/-- Three bytes in a new file. -/
def writeNew : Command := .make (.file (some ⟨[1, 2, 3], true, true⟩) none) [FileSystem.newName]

/-- Its password. -/
def secret : CString := ⟨[115], by decide⟩

def addSecret : Command := .ask (.change (.addpw secret) none) [FileSystem.newName]

/-- Writing over the file, with its password. -/
def writeAgain : Command := .make (.file (some ⟨[4], true, true⟩) (some secret)) [FileSystem.newName]

/-- The file is written, and its password is set. -/
theorem steps_addSecret {S : System (Image × Option CString) Event} {s s' : FileSystem} {output output' : Output}
    (hS : ∀ p e p', p.2 = none → p.1.Harmless e.command →
      (commands.monitored (lastPassword [FileSystem.newName])).step p e p' → S.step p e p')
    (hstep : commands.step newImage ⟨writeNew, stopped, output, s.printed⟩ s.toImage)
    (hstep' : commands.step s.toImage ⟨addSecret, stopped, output', s'.printed⟩ s'.toImage)
    (hprinted : s'.printed = []) :
    S.Steps (newImage, none) (s'.toImage, some secret) := by
  have hharmless : newImage.Harmless writeNew := harmless_newImage _ ⟨hasPlace_newImage, .inl (by decide +kernel)⟩
  have hharmless' : s.toImage.Harmless addSecret := trivial
  have hgoes : addSecret.Goes := by decide
  refine .step (.step .refl (hS (newImage, none) _ (s.toImage, none) rfl hharmless ⟨hstep, ?_⟩))
    (hS (s.toImage, none) _ (s'.toImage, some secret) rfl hharmless' ⟨hstep', ?_⟩)
  · rw [lastPassword]
    exact (ite_self none).symm
  · exact (if_pos ⟨rfl, hgoes, hprinted⟩).symm

/-- A file with a password, which is not read without it. -/
theorem commands_requires_newImage : ∃ (image : Image) (e : Event) (image' : Image),
    commands.step image e image' ∧ e.command = .ask (.read none) [FileSystem.newName] ∧ e.printed ≠ [] ∧
      image.Requires [FileSystem.newName] secret ∧ ¬e.TakesEffect image image' [FileSystem.newName] := by
  have heval : yields (newImage.exec writeNew stopped 10) (fun x =>
      yields (x.1.toImage.exec addSecret stopped 10) fun y => y.1.printed = [] &&
        yields (y.1.toImage.exec (.ask (.read none) [FileSystem.newName]) stopped 10) fun z => z.1.printed ≠ []) =
        true := by
    decide +kernel
  obtain ⟨s, _, hstep, heval⟩ := Image.step_of_yields _ _ _ _ heval
  obtain ⟨s', _, hstep', heval⟩ := Image.step_of_yields _ _ _ _ heval
  obtain ⟨hprinted, heval⟩ := Bool.and_eq_true_iff.1 heval
  obtain ⟨_, _, hread, hrefused⟩ := Image.step_of_yields _ _ _ _ heval
  have hsteps : ((commands.monitored (lastPassword [FileSystem.newName])).restrict (OnlyOn [FileSystem.newName])).Steps
      (newImage, none) (s'.toImage, some secret) := by
    refine steps_addSecret (fun p e p' hnone hharmless hstep => ⟨⟨hharmless, ?_⟩, hstep⟩) hstep hstep'
      (of_decide_eq_true hprinted)
    simp [hnone]
  obtain ⟨hrequires, hneeded⟩ := commands_requires clean_zero hsteps
  refine ⟨_, _, _, hread, rfl, of_decide_eq_true hrefused, hrequires, fun heffect => ?_⟩
  have hharmless : s'.toImage.Harmless (.ask (.read none) [FileSystem.newName]) := trivial
  cases hneeded _ _ rfl hharmless hread heffect

/-- Data is copied. -/
def Output.isCopied : Output → Bool
  | .copied _ => true
  | _ => false

/-- A file that is overwritten, with its password, is read without it. -/
theorem not_requires : ¬∀ g now is1024 path image s,
    ((commands.monitored (lastPassword path)).restrict fun p e => p.2.isSome → e.command.path = path).Steps
      (createFilesystem g now is1024, none) (image, some s) →
    image.Requires path s ∧ ∀ e image', e.command.path = path → commands.step image e image' →
      e.TakesEffect image image' path → e.command.password = some s := by
  intro hall
  have heval : yields (newImage.exec writeNew stopped 10) (fun x =>
      yields (x.1.toImage.exec addSecret stopped 10) fun y => y.1.printed = [] &&
        yields (y.1.toImage.exec writeAgain stopped 10) fun z => z.1.printed = [] &&
          yields (z.1.toImage.exec (.ask (.read none) [FileSystem.newName]) stopped 10) fun w => w.2.isCopied) = true := by
    decide +kernel
  obtain ⟨s₁, _, hstep₁, heval⟩ := Image.step_of_yields _ _ _ _ heval
  obtain ⟨s₂, _, hstep₂, heval⟩ := Image.step_of_yields _ _ _ _ heval
  obtain ⟨hprinted₂, heval⟩ := Bool.and_eq_true_iff.1 heval
  obtain ⟨s₃, output₃, hstep₃, heval⟩ := Image.step_of_yields _ _ _ _ heval
  obtain ⟨-, heval⟩ := Bool.and_eq_true_iff.1 heval
  obtain ⟨s₄, output, hstep₄, hcopied⟩ := Image.step_of_yields _ _ _ _ heval
  have hsteps : ((commands.monitored (lastPassword [FileSystem.newName])).restrict fun p e =>
      p.2.isSome → e.command.path = [FileSystem.newName]).Steps (newImage, none) (s₂.toImage, some secret) := by
    refine steps_addSecret (fun p e p' hnone _ hstep => ⟨?_, hstep⟩) hstep₁ hstep₂ (of_decide_eq_true hprinted₂)
    simp [hnone]
  -- `write` sets no password.
  have hlast : some secret = (lastPassword [FileSystem.newName]).next (some secret) s₂.toImage
      ⟨writeAgain, stopped, output₃, s₃.printed⟩ s₃.toImage := by
    rw [lastPassword]
    exact (ite_self (some secret)).symm
  obtain ⟨-, heffect⟩ := hall _ _ _ _ _ _ (.step hsteps ⟨fun _ => rfl, hstep₃, hlast⟩)
  obtain ⟨linuxFile, rfl⟩ : ∃ linuxFile, output = .copied linuxFile := by
    cases output with
    | copied linuxFile => exact ⟨linuxFile, rfl⟩
    | none | listed _ => cases hcopied
  cases heffect _ _ rfl hstep₄ (.inl ⟨linuxFile, rfl⟩)

end GtuOs.FatFileSystem
