import GtuOs.FatFileSystem.Accounting
import GtuOs.FatFileSystem.Fate

/-!
# What runs keep

After commands that reach no defect, every path still leads to an entry of the same kind, unless a
directory has been overwritten (`commands_keepsKinds`), and what has been written last at a path is
read back (`commands_readsBack`).
-/

namespace GtuOs.FatFileSystem

namespace Image

/-- Every path that leads to a directory, or to a file, still does. -/
def KeepsKinds (image image' : Image) : Prop :=
  ∀ path e, image.Resolves path e →
    ∃ e', image'.Resolves path e' ∧ (e.IsDirectory → e'.IsDirectory) ∧ (e.IsFile → e'.IsFile)

/-- No directory is overwritten. -/
def SparesDirectories (image : Image) : Command → Prop
  | .make (.file (some _) pw) path => ∀ e, image.Resolves path e → e.Opens pw →
    checkAttribute e.attributes writePermission → e.IsFile
  | _ => True

end Image

/-- A step on a tree. -/
theorem Image.HasTree.keepsKinds {image image' : Image} {l : List ℕ} {t t' : Tree} {e : Event} {P : Outcome → Prop}
    {sb sb' : Superblock} {accepted : Bool} (h : image.HasTree l t) (h' : image'.HasTree l t')
    (hmoves : Moves P e.clock e.command t sb t' sb' e.output accepted) (hspares : image.SparesDirectories e.command) :
    image.KeepsKinds image' := by
  intro p d hres
  obtain ⟨n, hn, rfl⟩ := h.resolves_iff.1 hres
  have hkinds : ∀ {m : Node}, t'.resolve p = some m → ((∃ r l sub, n = .dir r l sub) → ∃ r l sub, m = .dir r l sub) →
      ((∃ r l content, n = .file r l content) → ∃ r l content, m = .file r l content) →
      ∃ e', image'.Resolves p e' ∧ (n.record.entry.IsDirectory → e'.IsDirectory) ∧
        (n.record.entry.IsFile → e'.IsFile) := by
    intro m hm hdir hfile
    have hheld := h.hasTree.heldBy.resolve hn
    have hheld' := h'.hasTree.heldBy.resolve hm
    refine ⟨_, h'.resolves_iff.2 ⟨m, hm, rfl⟩, ?_, ?_⟩
    · rw [hheld.isDirectory_iff, hheld'.isDirectory_iff]
      exact hdir
    · rw [hheld.isFile_iff, hheld'.isFile_iff]
      exact hfile
  -- What is overwritten is a file.
  have hover : ∀ {m m' : Node}, t.resolve e.command.path = some m → Edits (e.clock 0) e.command m m' →
      (∃ r l content, m = .file r l content) ∧ ∃ r l content, m' = .file r l content := by
    intro m m' hm hedits
    have hheld := h.hasTree.heldBy.resolve hm
    generalize e.command = c at hm hedits hspares
    cases hedits with
    | overwritten hopens hwrite =>
      exact ⟨hheld.isFile_iff.1 (hspares _ (h.resolves_iff.2 ⟨_, hm, rfl⟩) hopens hwrite), _, _, _, rfl⟩
    | changed _ _ _ => exact ⟨⟨_, _, _, rfl⟩, _, _, _, rfl⟩
  cases hmoves.fate hn with
  | stays hm hstays =>
    cases hstays with
    | file _ => exact hkinds hm (by simp) (by simp)
    | dir => exact hkinds hm (by simp) (by simp)
  | ends hm hm' hedits =>
    obtain ⟨⟨r, l, content, rfl⟩, r', l', content', rfl⟩ := hover hm hedits
    exact hkinds hm' (by simp) (by simp)
  | below _ hm _ hedits =>
    obtain ⟨⟨r, l, content, hfile⟩, -⟩ := hover hm hedits
    cases hfile

/-- An image that commands without defects have led to has a tree. -/
theorem hasTree_of_steps {g : Garbage} {now : Stamp} {is1024 : Bool} (hg : g.Clean is1024) {image : Image}
    (hsteps : (commands.restrict fun image e => image.Harmless e.command).Steps (createFilesystem g now is1024) image) :
    ∃ l t, image.HasTree l t ∧ t.Single := by
  obtain ⟨l, h₀⟩ := hasTree_createFilesystem hg now
  obtain ⟨t, h, hsingle, -⟩ := h₀.steps (I := fun _ _ => True) (fun _ _ hok => hok)
    (fun _ _ _ _ _ _ _ _ _ _ _ _ => trivial) hsteps trivial trivial
  exact ⟨l, t, h, hsingle⟩

/-- **The namespace only grows.** After commands that reach no defect, a command that overwrites no
    directory leaves every path leading to an entry of the same kind. -/
theorem commands_keepsKinds {g : Garbage} {now : Stamp} {is1024 : Bool} (hg : g.Clean is1024) {image image' : Image}
    (hsteps : (commands.restrict fun image e => image.Harmless e.command).Steps (createFilesystem g now is1024) image)
    {e : Event} (hharmless : image.Harmless e.command) (hspares : image.SparesDirectories e.command)
    (hstep : commands.step image e image') : image.KeepsKinds image' := by
  obtain ⟨l, t, h, hsingle⟩ := hasTree_of_steps hg hsteps
  obtain ⟨t', accepted, hmoves, h', -⟩ := h.step hsingle hharmless hstep
  exact h.keepsKinds h' hmoves hspares

/-- Another name. -/
def otherName : CString := ⟨[98], by decide⟩

/-- What the first of two commands leaves behind for the second one. -/
def ready (image : Image) : Bool := decide (image.load.blockSize = 512)

/-- A second entry is made where the first one has been. -/
theorem harmless_otherName {target target' : Target} {clock : ℕ → Stamp} {output : Output} {image : Image}
    (hharmless : newImage.Harmless (.make target [FileSystem.newName]))
    (hstep : commands.step newImage ⟨.make target [FileSystem.newName], clock, output, []⟩ image)
    (hready : ready image = true)
    (htarget : ∀ linuxFile pw, target' = .file (some linuxFile) pw → linuxFile.content.length ≤ 512) :
    image.Harmless (.make target' [otherName]) := by
  obtain ⟨l, t, r, h, ht, hr, hsize⟩ := single_of_step hharmless hstep
  have hnone : ¬r.IsFor otherName := fun hother =>
    absurd (hr.2.symm.trans hother.2) (by decide : FileSystem.newName.chars ≠ otherName.chars)
  exact harmless_of_single h ht hr.1 hsize (of_decide_eq_true hready) hnone (by decide) htarget

/-- A directory stays one when another one is made. -/
theorem commands_keepsKinds_newImage : ∃ image e image',
    (commands.restrict fun image e => image.Harmless e.command).Steps newImage image ∧
      commands.step image e image' ∧ e.command = .make .dir [otherName] ∧ e.printed = [] ∧
      (∃ d, image.Resolves [FileSystem.newName] d ∧ d.IsDirectory) ∧
      ∃ d, image'.Resolves [FileSystem.newName] d ∧ d.IsDirectory := by
  have hharmless : newImage.Harmless (.make .dir [FileSystem.newName]) :=
    harmless_newImage .dir hasPlace_newImage
  have heval : yields (newImage.exec (.make .dir [FileSystem.newName]) stopped 10) (fun x =>
      (x.1.printed = [] && ready x.1.toImage && x.1.toImage.finds FileSystem.newName fun d => d.IsDirectory) &&
        yields (x.1.toImage.exec (.make .dir [otherName]) stopped 10) fun y => y.1.printed = []) = true := by
    decide +kernel
  obtain ⟨s, _, hstep, heval⟩ := Image.step_of_yields _ _ _ _ heval
  obtain ⟨hfirst, heval⟩ := Bool.and_eq_true_iff.1 heval
  obtain ⟨hfirst, hfinds⟩ := Bool.and_eq_true_iff.1 hfirst
  obtain ⟨hprinted, hready⟩ := Bool.and_eq_true_iff.1 hfirst
  obtain ⟨s', output', hstep', hprinted'⟩ := Image.step_of_yields _ _ _ _ heval
  obtain ⟨d, hres, hdir⟩ := Image.exists_of_finds hfinds
  have hdir : d.IsDirectory := of_decide_eq_true hdir
  rw [of_decide_eq_true hprinted] at hstep
  have hsteps : (commands.restrict fun image e => image.Harmless e.command).Steps newImage s.toImage :=
    .step .refl ⟨hharmless, hstep⟩
  have hharmless' : s.toImage.Harmless (.make .dir [otherName]) :=
    harmless_otherName hharmless hstep hready fun _ _ h => by cases h
  have hspares : s.toImage.SparesDirectories (.make .dir [otherName]) := trivial
  obtain ⟨d', hres', hkeeps, -⟩ := commands_keepsKinds clean_zero hsteps hharmless' hspares hstep' _ _ hres
  exact ⟨_, _, _, hsteps, hstep', rfl, of_decide_eq_true hprinted', ⟨d, hres, hdir⟩, d', hres', hkeeps hdir⟩

/-- A directory that is overwritten becomes a file. -/
theorem not_keepsKinds : ¬∀ image e image', commands.Reachable image → commands.step image e image' →
    image.KeepsKinds image' := by
  intro hall
  have heval : yields (newImage.exec (.make .dir [FileSystem.newName]) stopped 10) (fun x =>
      x.1.toImage.finds FileSystem.newName (fun d => d.IsDirectory) &&
        yields (x.1.toImage.exec writeOver stopped 10) fun y =>
          y.1.toImage.finds FileSystem.newName fun d => d.IsFile) = true := by
    decide +kernel
  obtain ⟨s, _, hstep, heval⟩ := Image.step_of_yields _ _ _ _ heval
  obtain ⟨hfinds, heval⟩ := Bool.and_eq_true_iff.1 heval
  obtain ⟨s', _, hstep', hfinds'⟩ := Image.step_of_yields _ _ _ _ heval
  obtain ⟨d, hres, hdir⟩ := Image.exists_of_finds hfinds
  obtain ⟨d', hres', hfile⟩ := Image.exists_of_finds hfinds'
  obtain ⟨e, hrese, hkind, -⟩ := hall _ _ _ (.step (.init ⟨_, _, _, rfl⟩) hstep) hstep' _ _ hres
  obtain rfl := hres'.unique hrese
  have hfile : d'.IsFile := of_decide_eq_true hfile
  exact hfile.2 (hkind (of_decide_eq_true hdir)).1

/-! ## What is read back -/

/-- The command is `write`, on this path. -/
def Command.WritesTo (path : List CString) : Command → Prop
  | .make (.file _ _) path' => path' = path
  | _ => False

/-- A `read` of the path that passes the checks copies this content. -/
def Image.ReadsBack (image : Image) (path : List CString) (content : List UInt8) : Prop :=
  ∀ e pw clock, image.Resolves path e → e.IsFile → e.Opens pw → checkAttribute e.attributes readPermission →
    ∃ s r w, Settles (image.exec (.ask (.read pw) path) clock) (.ok (s, .copied ⟨content, r, w⟩))

namespace Tree

variable {t t' : Tree} {p q : List CString} {content : List UInt8}

/-- The path leads to a file with this content, or is cut off by a file. -/
def Lasts (t : Tree) (p : List CString) (content : List UInt8) : Prop :=
  (∃ r l, t.resolve p = some (.file r l content)) ∨
    ∃ q q' r l c, p = q ++ q' ∧ q' ≠ [] ∧ t.resolve q = some (.file r l c)

/-- A file is at the end of a path. -/
theorem resolve_append_file {r : Record} {l : List ℕ} {c : List UInt8} (h : t.resolve p = some (.file r l c))
    (hq : q ≠ []) : t.resolve (p ++ q) = none := by
  induction p generalizing t with
  | nil => cases h
  | cons name p ih =>
    rw [List.cons_append, Option.eq_none_iff_forall_ne_some]
    intro n hn
    obtain ⟨r', l', sub, hdir, hsub⟩ := (resolve_cons name (List.append_ne_nil_of_right_ne_nil p hq)).1 hn
    rcases eq_or_ne p [] with rfl | hp
    · cases hdir.symm.trans h
    · obtain ⟨r'', l'', sub', hdir', hsub'⟩ := (resolve_cons name hp).1 h
      obtain ⟨-, -, rfl⟩ := Node.dir.inj (Option.some.inj (hdir.symm.trans hdir'))
      exact absurd hsub (by rw [ih hsub']; simp)

end Tree

/-- What is at the path stays, or is cut off, as long as nothing is written there. -/
theorem Moves.lasts {P : Outcome → Prop} {clock : ℕ → Stamp} {c : Command} {t t' : Tree} {sb sb' : Superblock}
    {output : Output} {accepted : Bool} {p : List CString} {content : List UInt8}
    (h : Moves P clock c t sb t' sb' output accepted) (hc : ¬c.WritesTo p) (hlasts : t.Lasts p content) :
    t'.Lasts p content := by
  -- What is changed as a whole is a file afterwards.
  have hedits : ∀ {n n' : Node}, Edits (clock 0) c n n' → ∃ r l c, n' = .file r l c := by
    intro n n' hedits
    cases hedits with
    | overwritten _ _ | changed _ _ _ => exact ⟨_, _, _, rfl⟩
  have hcut : ∀ {q q' : List CString} {n : Node}, q' ≠ [] → t'.resolve q = some n → (∃ r l c, n = .file r l c) →
      t'.Lasts (q ++ q') content := by
    rintro q q' _ hq' hn ⟨r, l, c, rfl⟩
    exact .inr ⟨q, q', r, l, c, rfl, hq', hn⟩
  rcases hlasts with ⟨r, l, hfile⟩ | ⟨q, q', r, l, d, rfl, hq', hfile⟩
  · generalize hnode : Node.file r l content = n at hfile
    cases h.fate hfile with
    | stays hn hstays =>
      subst hnode
      cases hstays with
      | file _ => exact .inl ⟨_, l, hn⟩
    | ends _ hn hedits =>
      cases hedits with
      | overwritten _ _ => exact absurd rfl hc
      | changed _ _ _ =>
        obtain ⟨-, -, rfl⟩ := Node.file.inj hnode
        exact .inl ⟨_, _, hn⟩
    | below hne _ hd hedit => exact hcut hne hd (hedits hedit)
  · generalize hnode : Node.file r l d = n at hfile
    cases h.fate hfile with
    | stays hn hstays =>
      subst hnode
      cases hstays with
      | file _ => exact hcut hq' hn ⟨_, _, _, rfl⟩
    | ends _ hn hedit => exact hcut hq' hn (hedits hedit)
    | below hne _ hd hedit =>
      rw [List.append_assoc]
      exact hcut (List.append_ne_nil_of_right_ne_nil _ hq') hd (hedits hedit)

/-- What has been written is there. -/
theorem Moves.written {P : Outcome → Prop} {clock : ℕ → Stamp} {t t' : Tree} {sb sb' : Superblock} {output : Output}
    {path : List CString} {linuxFile : LinuxFile} {pw : Option CString}
    (h : Moves P clock (.make (.file (some linuxFile) pw) path) t sb t' sb' output true) :
    ∃ r l, t'.resolve path = some (.file r l linuxFile.content) := by
  generalize hacc : true = accepted at h
  cases h with
  | @make _ _ _ _ _ res out _ halong =>
    refine Tree.ends_of_along (R := fun _ o => ∃ r l, o = some (.file r l linuxFile.content)) halong
      (fun k r name hfor => hfor.mkdirTouch res clock k) fun path t t' hacts => ?_
    cases hacts with
    | refused _ | unopened _ | miscounted _ => cases hacc
    | directory htarget _ _ _ _ => cases htarget
    | @file name _ r b _ _ htarget hnone hfor _ _ =>
      cases htarget
      have hkept : t.kept.find name = none := by rw [Tree.find_kept, hnone]; rfl
      exact ⟨r, _, Tree.find_split (n := .file r [b] linuxFile.content) hkept hfor .nil⟩
    | @overwritten name t₁ t₂ n r' _ _ htarget hnone _ _ _ hfor' _ _ =>
      cases htarget
      exact ⟨r', _, Tree.find_split (n := .file r' n.chain linuxFile.content) hnone hfor' t₂⟩

namespace Image

variable {image image' : Image} {l : List ℕ} {t : Tree} {path : List CString} {content : List UInt8}

/-- Nothing is accepted where the root directory should be made. -/
theorem not_isRoot_of_accepted {target : Target} {clock : ℕ → Stamp} {output : Output} {printed : List Message}
    (hstep : commands.step image ⟨.make target path, clock, output, printed⟩ image')
    (hacc : Event.Accepted ⟨.make target path, clock, output, printed⟩) : ¬IsRoot path := by
  rintro ⟨name, hname, hslash⟩
  obtain ⟨s, hset, hprinted, -⟩ := hstep
  obtain ⟨names, rfl⟩ := List.head?_eq_some_iff.1 hname
  have hroot : Settles (image.exec (.make target (name :: names)) clock)
      (.ok (image.load.print .cannotCreateRoot, Output.none)) := by
    refine (Settles.const _).congr fun fuel => ?_
    rw [exec_make, mkdirEntry]
    exact congrArg (· >>= fun s => Except.ok (s, Output.none)) (if_pos hslash)
  obtain ⟨rfl, -⟩ := Prod.mk.inj (Except.ok.inj (hset.unique hroot))
  exact image.load.print_printed_ne _ (hprinted.trans hacc.2)

/-- A file of the tree is read back. -/
theorem HasTree.readsBack (h : image.HasTree l t) (hsingle : t.Single) (hroot : ¬IsRoot path)
    (hlasts : t.Lasts path content) : image.ReadsBack path content := by
  intro e pw clock hres hfile hopens hread
  obtain ⟨n, hn, rfl⟩ := h.resolves_iff.1 hres
  rcases hlasts with ⟨r, l', hfile'⟩ | ⟨q, q', r, l', c, rfl, hq', hcut⟩
  · obtain rfl := Option.some.inj (hfile'.symm.trans hn)
    have hstores : image.load.StoresFile r l' content := h.hasTree.heldBy.resolve hn
    have hle := hsingle.length_le h.hasTree.heldBy hn
    have hset := FileSystem.Resolves.traverseDirHelper hres
      (hstores.copied h.consistent.geometry hle hopens hread (clock 0))
    refine ⟨_, _, _, hset.congr fun fuel => ?_⟩
    obtain ⟨name, names, rfl⟩ := List.exists_cons_of_ne_nil (FileSystem.Resolves.ne_nil hres)
    exact if_neg (isRoot_cons.not.1 hroot)
  · rw [Tree.resolve_append_file hcut hq'] at hn
    cases hn

end Image

/-- **Reading after writing.** In a run of commands that reach no defect, what is written at a path is read
    back until something else is written there. -/
theorem commands_readsBack {g : Garbage} {now : Stamp} {is1024 : Bool} (hg : g.Clean is1024)
    {image₀ image₁ image₂ : Image}
    (hsteps₀ : (commands.restrict fun image e => image.Harmless e.command).Steps (createFilesystem g now is1024) image₀)
    {e : Event} {path : List CString} {linuxFile : LinuxFile} {pw : Option CString}
    (he : e.command = .make (.file (some linuxFile) pw) path) (hharmless : image₀.Harmless e.command)
    (hstep : commands.step image₀ e image₁) (hacc : e.Accepted)
    (hsteps : (commands.restrict fun image e => image.Harmless e.command ∧ ¬e.command.WritesTo path).Steps
      image₁ image₂) : image₂.ReadsBack path linuxFile.content := by
  obtain ⟨l, t₀, h₀, hsingle₀⟩ := hasTree_of_steps hg hsteps₀
  obtain ⟨t₁, accepted, hmoves, h₁, hsingle₁, hprinted⟩ := h₀.step hsingle₀ hharmless hstep
  obtain ⟨c, clock, output, printed⟩ := e
  obtain rfl : c = _ := he
  obtain rfl : accepted = true := (hprinted hacc.1).1 hacc.2
  obtain ⟨t₂, h₂, hsingle₂, hlasts⟩ := h₁.steps (I := fun t _ => t.Lasts path linuxFile.content)
    (fun _ _ hok => hok.1) (fun _ _ _ _ _ _ _ hok _ hmoves _ hlasts => hmoves.lasts hok.2 hlasts) hsteps hsingle₁
    (.inl hmoves.written)
  exact h₂.readsBack hsingle₂ (Image.not_isRoot_of_accepted hstep hacc) hlasts

/-- A file that is read without a password. -/
def DirectoryEntry.Readable (e : DirectoryEntry) : Prop :=
  e.IsFile ∧ e.Opens none ∧ checkAttribute e.attributes readPermission

instance (e : DirectoryEntry) : Decidable e.Readable := inferInstanceAs (Decidable (_ ∧ _))

/-- Another file in the root directory. -/
def writeOther : Command := .make (.file (some ⟨[2], true, true⟩) none) [otherName]

/-- Three bytes that are read back after another file has been written. -/
theorem commands_readsBack_newImage : ∃ image e image',
    commands.step image e image' ∧ e.command = writeOther ∧ e.printed = [] ∧
      (∃ d, image'.Resolves [FileSystem.newName] d ∧ d.Readable) ∧ image'.ReadsBack [FileSystem.newName] [1, 2, 3] := by
  let target : Target := .file (some ⟨[1, 2, 3], true, true⟩) none
  have hharmless : newImage.Harmless (.make target [FileSystem.newName]) :=
    harmless_newImage target ⟨hasPlace_newImage, .inl (by decide +kernel)⟩
  have heval : yields (newImage.exec (.make target [FileSystem.newName]) stopped 10) (fun x =>
      (x.1.printed = [] && ready x.1.toImage) && yields (x.1.toImage.exec writeOther stopped 10) fun y =>
        y.1.printed = [] && y.1.toImage.finds FileSystem.newName fun e => e.Readable) = true := by
    decide +kernel
  obtain ⟨s, _, hstep, heval⟩ := Image.step_of_yields _ _ _ _ heval
  obtain ⟨hfirst, heval⟩ := Bool.and_eq_true_iff.1 heval
  obtain ⟨hprinted, hready⟩ := Bool.and_eq_true_iff.1 hfirst
  obtain ⟨s', _, hstep', heval⟩ := Image.step_of_yields _ _ _ _ heval
  obtain ⟨hprinted', hfinds⟩ := Bool.and_eq_true_iff.1 heval
  obtain ⟨e, hres, hreadable⟩ := Image.exists_of_finds hfinds
  rw [of_decide_eq_true hprinted] at hstep
  have hsteps₀ : (commands.restrict fun image e => image.Harmless e.command).Steps newImage newImage := .refl
  have hharmless' : s.toImage.Harmless writeOther := harmless_otherName hharmless hstep hready fun linuxFile pw h => by
    obtain ⟨h, -⟩ := Target.file.inj h
    obtain rfl := Option.some.inj h
    decide
  have hother : ¬writeOther.WritesTo [FileSystem.newName] := by
    show ¬[otherName] = [FileSystem.newName]
    decide
  have hreads := commands_readsBack clean_zero hsteps₀ rfl hharmless hstep ⟨List.cons_ne_nil _ _, rfl⟩
    (.step .refl ⟨⟨hharmless', hother⟩, hstep'⟩)
  exact ⟨_, _, _, hstep', rfl, of_decide_eq_true hprinted', ⟨e, hres, of_decide_eq_true hreadable⟩, hreads⟩

/-- A copy whose last byte is another one. -/
def Output.differs : Output → Bool
  | .copied linuxFile => linuxFile.content.getD 512 0 ≠ 1
  | _ => false

set_option maxRecDepth 20000 in
/-- The second block of a file is written to, but not allocated: another file gets it. -/
theorem not_readsBack : ¬∀ image₀ e image₁ image₂ path linuxFile pw, commands.Reachable image₀ →
    e.command = .make (.file (some linuxFile) pw) path → commands.step image₀ e image₁ → e.Accepted →
    (commands.restrict fun _ e => ¬e.command.WritesTo path).Steps image₁ image₂ →
    image₂.ReadsBack path linuxFile.content := by
  intro hall
  have heval : yields (newImage.exec (.make (.file (some longFile) none) [FileSystem.newName]) stopped 600) (fun x =>
      x.1.printed = [] && yields (x.1.toImage.exec writeOther stopped 600) fun y =>
        y.1.toImage.finds FileSystem.newName (fun e => e.Readable) &&
          yields (y.1.toImage.exec (.ask (.read none) [FileSystem.newName]) stopped 600) fun z => z.2.differs) =
        true := by
    decide +kernel
  obtain ⟨s₁, _, hstep₁, heval⟩ := Image.step_of_yields _ _ _ _ heval
  obtain ⟨hprinted, heval⟩ := Bool.and_eq_true_iff.1 heval
  obtain ⟨s₂, _, hstep₂, heval⟩ := Image.step_of_yields _ _ _ _ heval
  obtain ⟨hfinds, heval⟩ := Bool.and_eq_true_iff.1 heval
  obtain ⟨e, hres, hreadable⟩ := Image.exists_of_finds hfinds
  obtain ⟨hfile, hopens, hread⟩ : e.Readable := of_decide_eq_true hreadable
  obtain ⟨⟨s₃, output⟩, hset, hdiffers⟩ := Settles.of_yields (fun _ _ h => Image.exec_below h _ _ _) heval
  have hother : ¬writeOther.WritesTo [FileSystem.newName] := by
    show ¬[otherName] = [FileSystem.newName]
    decide
  obtain ⟨s, r, w, hset'⟩ := hall _ _ _ _ _ _ _ (.init ⟨_, _, _, rfl⟩) rfl hstep₁
    ⟨List.cons_ne_nil _ _, of_decide_eq_true hprinted⟩ (.step .refl ⟨hother, hstep₂⟩) e none stopped hres hfile hopens
    hread
  obtain ⟨-, rfl⟩ := Prod.mk.inj (Except.ok.inj (hset.unique hset'))
  have hsame : Output.differs (.copied ⟨longFile.content, r, w⟩) = false := rfl
  exact absurd hdiffers (by rw [hsame]; exact Bool.false_ne_true)

end GtuOs.FatFileSystem
