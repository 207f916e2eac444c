import GtuOs.FatFileSystem.Walking
import GtuOs.Lib.System

/-!
# Runs of commands

A command is run on the image that the one before it has left (`commands`). On a consistent image with
a tree (`Image.HasTree`), a command that reaches no defect (`Image.Harmless`) ends, with a
consistent image, whose tree and superblock are those that the command makes of them
(`Image.exec_spec`, `Moves`). So what the moves preserve holds after all runs of such commands
(`Image.HasTree.steps`).
-/

namespace GtuOs.FatFileSystem

/-- The commands: `mkdir` and `write`, and `dir`, `read`, `chmod` and `addpw`. -/
inductive Command
  | make (target : Target) (path : List CString)
  | ask (q : Query) (path : List CString)

/-- The path of a command. -/
def Command.path : Command → List CString
  | make _ path => path
  | ask _ path => path

/-- The path is that of the root. -/
def IsRoot (path : List CString) : Prop := ∃ name ∈ path.head?, name.chars = [slash]

@[simp] theorem isRoot_cons {name : CString} {path : List CString} : IsRoot (name :: path) ↔ name.chars = [slash] := by
  simp [IsRoot]

/-- The command goes along a path: the others end at once, and print nothing. -/
def Command.Goes : Command → Prop
  | make _ path => path ≠ []
  | ask _ path => path ≠ [] ∧ ¬IsRoot path

/-- The entry after `res` bytes have been added below it. -/
def DirectoryEntry.addBytes (e : DirectoryEntry) (res : ℤ) : DirectoryEntry :=
  if res = -1 then e else { e with size := e.size + UInt32.ofInt res }

/-- What a command makes of a tree and of the superblock, with an outcome out of `P`, and whether it is
    accepted. -/
inductive Moves (P : Outcome → Prop) (clock : ℕ → Stamp) :
    Command → Tree → Superblock → Tree → Superblock → Output → Bool → Prop
  | make {target : Target} {path : List CString} {t t' : Tree} {sb : Superblock} {res : ℤ} {out : Outcome} :
    P out → Along (mkdirTouch res clock) (fun path t t' => Acts target path t t' res out) 0 path t t' →
    Moves P clock (.make target path) t sb t' { out.count sb with rootDir := sb.rootDir.addBytes res } .none
      out.accepted
  | ask {q : Query} {path : List CString} {t t' : Tree} {sb : Superblock} {output : Output} {accepted : Bool} :
    Along (fun _ r => r) (fun path t t' => Walks q (clock 0) path t t' output accepted) 0 path t t' →
    Moves P clock (.ask q path) t sb t' sb output accepted
  /-- The path is that of the root. -/
  | root {q : Query} {path : List CString} {t : Tree} {sb : Superblock} {output : Output} :
    (∀ linuxFile, output ≠ .copied linuxFile) → Moves P clock (.ask q path) t sb t sb output false

namespace FileSystem

variable {s s' : FileSystem} {i : UInt16} {l : List ℕ} {t : Tree}

/-- The superblock is written at last, with the size of the root directory. -/
theorem Consistent.writeRoot (hs : s.Consistent) (rootDir : DirectoryEntry) :
    let s' := { s with sb := { s.sb with rootDir } }.writeSuperblock
    s'.Consistent ∧ s.Keeps s' ∅ := by
  intro s'
  let s₁ : FileSystem := { s with sb := { s.sb with rootDir } }
  have hsup := hs.geometry.superblock_le
  have heq : s' = { s₁ with disk := s.disk.store 0 Superblock.sizeof s₁.sb.bytes } :=
    write_eq (s := s₁) hs.geometry.superblock_le_length
  rw [heq]
  have hk : s.Keeps { s₁ with disk := s.disk.store 0 Superblock.sizeof s₁.sb.bytes } ∅ := by
    refine ⟨rfl, rfl, rfl, rfl, rfl, fun _ _ => rfl, fun b hb _ j _ => Memory.store_of_not_mem (.inr ?_)⟩
    have hmul := Nat.mul_le_mul_right s.blockSize ((Nat.le_add_right _ _).trans hb)
    omega
  refine ⟨hs.of_keeps hk ⟨?_, fun b hb => ?_⟩ rfl rfl, hk⟩
  · exact Superblock.load_of_bytes fun k hk => Memory.store_add hk
  · refine (Memory.load16_congr fun k hk => ?_).trans (hs.stored.fat b hb)
    refine Memory.store_of_not_mem (.inr ?_)
    show _ ≤ s.sb.blockNumberForSuperblock.toNat * s.blockSize + 2 * b + k
    omega

end FileSystem

namespace Image

variable {image image' : Image} {l : List ℕ} {t t' : Tree} {c : Command} {clock : ℕ → Stamp}

/-- A command. The clock is read anew at every name of a path. -/
def exec (image : Image) (c : Command) (clock : ℕ → Stamp) (fuel : ℕ) : Except Fault (FileSystem × Output) :=
  match c with
  | .make .dir path => do
    let s ← image.mkdirCommand path clock fuel
    .ok (s, .none)
  | .make (.file linuxFile pw) path => do
    let s ← image.writeCommand path linuxFile pw clock fuel
    .ok (s, .none)
  | .ask .dir path => image.dirCommand path (clock 0) fuel
  | .ask (.read pw) path => image.readCommand path pw (clock 0) fuel
  | .ask (.change (.chmod mods) pw) path => image.chmodCommand path mods pw (clock 0) fuel
  | .ask (.change (.addpw newPwd) pw) path => image.addpwCommand path newPwd pw (clock 0) fuel

theorem exec_make (image : Image) (target : Target) (path : List CString) (clock : ℕ → Stamp) (fuel : ℕ) :
    image.exec (.make target path) clock fuel =
      image.mkdirEntry path target clock fuel >>= fun s => .ok (s, .none) := by
  cases target <;> rfl

theorem exec_ask (image : Image) (q : Query) (path : List CString) (clock : ℕ → Stamp) :
    image.exec (.ask q path) clock = image.traverseFileOrDir path q (clock 0) := by
  cases q with
  | dir | read pw => rfl
  | change c pw => cases c <;> rfl

theorem exec_below {n m : ℕ} (h : n ≤ m) (image : Image) (c : Command) (clock : ℕ → Stamp) :
    Below (image.exec c clock n) (image.exec c clock m) := by
  cases c with
  | make target path =>
    rw [exec_make, exec_make]
    exact .bind (mkdirEntry_below h _ _ _ _) fun _ => .refl _
  | ask q path =>
    rw [exec_ask]
    exact traverseFileOrDir_below h _ _ _ _

/-- The image is consistent, and its root directory has the tree `t`. -/
structure HasTree (image : Image) (l : List ℕ) (t : Tree) : Prop where
  consistent : image.load.Consistent
  hasTree : image.load.HasTree image.load.sb.rootDir.firstBlockIndex l t

/-- The command reaches no defect where its path ends. Creating the root directory is refused. -/
def Harmless (image : Image) : Command → Prop
  | .make target path => ¬IsRoot path → image.load.HarmlessAt image.load.sb.rootDir.firstBlockIndex path target
  | .ask _ _ => True

/-- The outcomes that a command can come to. -/
def Reaches (image : Image) (out : Outcome) : Command → Prop
  | .make target path =>
    (IsRoot path → out = .refused) ∧ image.load.Reaches target image.load.sb.rootDir.firstBlockIndex path out
  | .ask _ _ => False

/-- What is stored is loaded by the next command. -/
theorem HasTree.of_stored {s : FileSystem} (hs : s.Consistent) (ht : s.HasTree s.sb.rootDir.firstBlockIndex l t) :
    s.toImage.HasTree l t := by
  refine ⟨hs.load, ?_⟩
  rw [FileSystem.load_sb_eq hs.stored]
  exact ht.load hs

/-- Without a path to go along. -/
theorem HasTree.self (h : image.HasTree l t) : image.load.toImage.HasTree l t ∧ image.load.toImage.load.sb =
    image.load.sb :=
  ⟨.of_stored h.consistent h.hasTree, FileSystem.load_sb_eq h.consistent.stored⟩

/-- `mkdir_entry` adds what comes back from `mkdir_helper` to the root directory, and writes the superblock. -/
theorem settles_mkdirEntry {target : Target} {name : CString} {path : List CString} {s₁ : FileSystem} {res : ℤ}
    (hslash : name.chars ≠ [slash])
    (hset : Settles (fun fuel => image.load.mkdirHelper target clock fuel 0 (name :: path) image.load.sb.rootDir)
      (.ok (s₁, res))) :
    Settles (image.mkdirEntry (name :: path) target clock) (.ok (if res = -1 then s₁ else
      { s₁ with sb := { s₁.sb with
        rootDir := { s₁.sb.rootDir with size := s₁.sb.rootDir.size + UInt32.ofInt res } } }.writeSuperblock)) := by
  let g : FileSystem × ℤ → Except Fault FileSystem := fun x =>
    if x.2 = -1 then .ok x.1
    else .ok { x.1 with sb := { x.1.sb with
      rootDir := { x.1.sb.rootDir with size := x.1.sb.rootDir.size + UInt32.ofInt x.2 } } }.writeSuperblock
  have hstep : Settles (image.mkdirEntry (name :: path) target clock) (g (s₁, res)) :=
    (hset.bind_const g).congr fun fuel => if_neg hslash
  rw [apply_ite Except.ok]
  exact hstep

/-- A `mkdir` or `write` has no other output. -/
theorem settles_exec_make {target : Target} {path : List CString} {s' : FileSystem}
    (hset : Settles (image.mkdirEntry path target clock) (.ok s')) :
    Settles (image.exec (.make target path) clock) (.ok (s', Output.none)) :=
  (hset.bind_const fun s => .ok (s, Output.none)).congr fun fuel =>
    exec_make image target path clock fuel

/-- A `mkdir` or `write`, with the entry that is made. -/
theorem mkdirEntry_made (h : image.HasTree l t) {target : Target} {path : List CString}
    (hc : image.Harmless (.make target path)) (clock : ℕ → Stamp) :
    ∃ s' t' accepted, Settles (image.mkdirEntry path target clock) (.ok s') ∧
      Moves (image.Reaches · (.make target path)) clock (.make target path) t image.load.sb t' s'.sb .none accepted ∧
      s'.toImage.HasTree l t' ∧ s'.toImage.load.sb = s'.sb ∧ (path ≠ [] → (s'.printed = [] ↔ accepted)) ∧
      (accepted → FileSystem.Made target (clock (path.length - 1)) path t t') := by
  -- Nothing is done, and nothing is added.
  have hnothing : Moves (image.Reaches · (.make target path)) clock (.make target path) t image.load.sb t
      image.load.sb .none false :=
    .make ⟨fun _ => rfl, .inl rfl⟩ (.here (.refused (.inr rfl)))
  have hself := h.self
  cases path with
  | nil =>
    exact ⟨image.load, t, false, Settles.const _, hnothing, hself.1, hself.2, fun h => absurd rfl h,
      fun hacc => absurd hacc Bool.false_ne_true⟩
  | cons name path =>
    by_cases hslash : name.chars = [slash]
    · exact ⟨image.load.print .cannotCreateRoot, t, false, (Settles.const _).congr fun fuel => if_pos hslash, hnothing,
        hself.1, hself.2, fun _ => iff_of_false (image.load.print_printed_ne _) Bool.false_ne_true,
        fun hacc => absurd hacc Bool.false_ne_true⟩
    have hnotRoot : ¬IsRoot (name :: path) := isRoot_cons.not.2 hslash
    obtain ⟨s₁, t', res, out, hset, halong, hbecomes, hreaches, -, hmade⟩ :=
      FileSystem.mkdirHelper_made h.consistent h.hasTree target clock 0 (name :: path) (hc hnotRoot)
    rw [Nat.zero_add] at hmade
    have hstep := settles_mkdirEntry hslash hset
    have hmoves : Moves (image.Reaches · (.make target (name :: path))) clock (.make target (name :: path)) t
        image.load.sb t' _ .none out.accepted :=
      .make ⟨fun hroot => absurd hroot hnotRoot, hreaches⟩ halong
    have hroot : s₁.sb.rootDir = image.load.sb.rootDir := by
      rw [hbecomes.sb]
      cases out <;> rfl
    have hprinted : s₁.printed = [] ↔ out.accepted := hbecomes.printed
    by_cases hres : res = -1
    · subst hres
      rw [if_pos rfl] at hstep
      refine ⟨s₁, t', out.accepted, hstep, ?_, .of_stored hbecomes.consistent (hroot ▸ hbecomes.hasTree),
        FileSystem.load_sb_eq hbecomes.consistent.stored, fun _ => hprinted, hmade⟩
      rw [hbecomes.sb]
      rw [DirectoryEntry.addBytes, if_pos rfl] at hmoves
      cases out <;> exact hmoves
    · rw [if_neg hres] at hstep
      obtain ⟨hcons, hk⟩ := hbecomes.consistent.writeRoot
        { s₁.sb.rootDir with size := s₁.sb.rootDir.size + UInt32.ofInt res }
      refine ⟨_, t', out.accepted, hstep, ?_, .of_stored hcons ?_, FileSystem.load_sb_eq hcons.stored,
        fun _ => hprinted, hmade⟩
      · rw [DirectoryEntry.addBytes, if_neg hres, ← hroot, ← hbecomes.sb] at hmoves
        exact hmoves
      · refine FileSystem.HasTree.keeps ?_ hk fun _ _ => Set.notMem_empty _
        exact hroot ▸ hbecomes.hasTree

theorem mkdirEntry_spec (h : image.HasTree l t) {target : Target} {path : List CString}
    (hc : image.Harmless (.make target path)) (clock : ℕ → Stamp) :
    ∃ s' t' accepted, Settles (image.mkdirEntry path target clock) (.ok s') ∧
      Moves (image.Reaches · (.make target path)) clock (.make target path) t image.load.sb t' s'.sb .none accepted ∧
      s'.toImage.HasTree l t' ∧ s'.toImage.load.sb = s'.sb ∧ (path ≠ [] → (s'.printed = [] ↔ accepted)) := by
  obtain ⟨s', t', accepted, hset, hmoves, htree, hsb, hprinted, -⟩ := mkdirEntry_made h hc clock
  exact ⟨s', t', accepted, hset, hmoves, htree, hsb, hprinted⟩

theorem traverseFileOrDir_tree (h : image.HasTree l t) (q : Query) (path : List CString)
    (hsmall : ∀ r l content, t.resolve path = some (.file r l content) → content.length ≤ image.load.blockSize)
    (clock : ℕ → Stamp) {P : Outcome → Prop} :
    ∃ s' t' output accepted, Settles (image.traverseFileOrDir path q (clock 0)) (.ok (s', output)) ∧
      Moves P clock (.ask q path) t image.load.sb t' s'.sb output accepted ∧
      s'.toImage.HasTree l t' ∧ s'.toImage.load.sb = s'.sb ∧
      (path ≠ [] → ¬IsRoot path → (s'.printed = [] ↔ accepted)) := by
  have hself := h.self
  cases path with
  | nil =>
    exact ⟨image.load, t, .none, false, Settles.const _, .root nofun, hself.1, hself.2, fun h => absurd rfl h⟩
  | cons name path =>
    by_cases hslash : name.chars = [slash]
    · have hroot : IsRoot (name :: path) := isRoot_cons.2 hslash
      cases q with
      | dir =>
        refine ⟨image.load, t, .listed (FileSystem.listings t.records), false, ?_, .root nofun, hself.1, hself.2,
          fun _ h => absurd hroot h⟩
        exact (h.hasTree.table.printEntriesInDirectory.bind_const fun listings =>
          .ok (image.load, Output.listed listings)).congr fun fuel => if_pos hslash
      | read pw | change c pw =>
        exact ⟨image.load, t, .none, false, (Settles.const _).congr fun fuel => if_pos hslash, .root nofun, hself.1,
          hself.2, fun _ h => absurd hroot h⟩
    · obtain ⟨s', t', output, accepted, hset, halong, hanswers⟩ :=
        FileSystem.traverseDirHelper_tree h.consistent h.hasTree q (clock 0) 0 (name :: path) hsmall
      refine ⟨s', t', output, accepted, hset.congr fun fuel => if_neg hslash, hanswers.sb ▸ .ask halong,
        .of_stored hanswers.consistent (hanswers.sb ▸ hanswers.hasTree),
        FileSystem.load_sb_eq hanswers.consistent.stored, fun _ _ => hanswers.printed⟩

end Image

/-! ## Chains of one block -/

/-- Every chain is one block. -/
def Tree.Single (t : Tree) : Prop := t.All fun n => n.chain.length = 1

namespace Tree

variable {t t' : Tree} {k : ℕ} {path : List CString}

theorem Single.length_le {s : FileSystem} {r : Record} {l : List ℕ} {content : List UInt8} (h : t.Single)
    (ht : t.HeldBy s) (hres : t.resolve path = some (.file r l content)) : content.length ≤ s.blockSize := by
  have hone : l.length = 1 := h.resolve hres
  have hfile : s.StoresFile r l content := ht.resolve hres
  have hle := hfile.length_le
  rwa [hone, Nat.one_mul] at hle

theorem Single.of_along {touch : ℕ → Record → Record} {Q : List CString → Tree → Tree → Prop}
    (halong : Along touch Q k path t t') (hQ : ∀ path t t', Q path t t' → t.Single → t'.Single) (h : t.Single) :
    t'.Single := by
  induction halong with
  | here hq => exact hQ _ _ _ hq h
  | inside _ _ _ _ ih =>
    obtain ⟨h₁, ⟨hone, hsub⟩, h₂⟩ := all_split.1 h
    exact all_split.2 ⟨h₁, ⟨hone, ih hsub⟩, h₂⟩

theorem Single.of_acts {target : Target} {res : ℤ} {out : Outcome} (hacts : Acts target path t t' res out)
    (h : t.Single) : t'.Single := by
  have hkept : t.kept.Single := All.kept h fun n hn => by
    cases n <;> exact hn
  cases hacts with
  | refused _ | unopened _ | miscounted _ => exact h
  | directory _ _ _ _ _ => exact all_split.2 ⟨hkept, ⟨rfl, trivial⟩, trivial⟩
  | file _ _ _ _ _ => exact all_split.2 ⟨hkept, rfl, trivial⟩
  | @overwritten _ _ _ n _ _ _ _ _ _ _ _ _ _ _ =>
    obtain ⟨h₁, hn, h₂⟩ := all_split.1 h
    refine all_split.2 ⟨h₁, ?_, h₂⟩
    cases n with
    | file r l content => exact hn
    | dir r l sub => exact hn.1

theorem Single.of_walks {q : Query} {now : Stamp} {output : Output} {accepted : Bool}
    (hwalks : Walks q now path t t' output accepted) (h : t.Single) : t'.Single := by
  cases hwalks with
  | refused | listed _ _ | copied _ _ _ _ => exact h
  | changed _ _ _ _ _ _ _ =>
    obtain ⟨h₁, hn, h₂⟩ := all_split.1 h
    exact all_split.2 ⟨h₁, hn, h₂⟩

end Tree

theorem Moves.single {P : Outcome → Prop} {clock : ℕ → Stamp} {c : Command} {t t' : Tree} {sb sb' : Superblock}
    {output : Output} {accepted : Bool} (h : Moves P clock c t sb t' sb' output accepted) (hsingle : t.Single) :
    t'.Single := by
  cases h with
  | make _ h => exact .of_along h (fun _ _ _ hacts => .of_acts hacts) hsingle
  | ask h => exact .of_along h (fun _ _ _ hwalks => .of_walks hwalks) hsingle
  | root _ => exact hsingle

/-! ## Runs -/

/-- A command that is given, with what comes of it. -/
structure Event where
  command : Command
  clock : ℕ → Stamp
  output : Output
  printed : List Message

/-- The command goes along its path, and is not refused. -/
def Event.Accepted (e : Event) : Prop := e.command.Goes ∧ e.printed = []

/-- The commands on images, the first one of which `create_filesystem` makes. -/
def commands : System Image Event where
  init image := ∃ g now is1024, image = createFilesystem g now is1024
  step image e image' := ∃ s : FileSystem, Settles (image.exec e.command e.clock) (.ok (s, e.output)) ∧
    s.printed = e.printed ∧ s.toImage = image'

namespace Image

variable {image image' : Image} {l : List ℕ} {t t' : Tree} {c : Command}

/-- A command on an image whose chains are one block each. -/
theorem exec_spec (h : image.HasTree l t) (hsingle : t.Single) (hc : image.Harmless c) (clock : ℕ → Stamp) :
    ∃ s' t' output accepted, Settles (image.exec c clock) (.ok (s', output)) ∧
      Moves (image.Reaches · c) clock c t image.load.sb t' s'.sb output accepted ∧ s'.toImage.HasTree l t' ∧
      s'.toImage.load.sb = s'.sb ∧ (c.Goes → (s'.printed = [] ↔ accepted)) ∧
      ∀ target path, c = .make target path → accepted → FileSystem.Made target (clock (path.length - 1)) path t t' := by
  cases c with
  | make target path =>
    obtain ⟨s', t', accepted, hset, hmoves, htree, hsb, hprinted, hmade⟩ := mkdirEntry_made h hc clock
    refine ⟨s', t', .none, accepted, settles_exec_make hset, hmoves, htree, hsb, hprinted, ?_⟩
    rintro target path ⟨rfl, rfl⟩
    exact hmade
  | ask q path =>
    obtain ⟨s', t', output, accepted, hset, hmoves, htree, hsb, hprinted⟩ := traverseFileOrDir_tree h q path
      (fun r l content hres => hsingle.length_le h.hasTree.heldBy hres) clock
    rw [← exec_ask] at hset
    exact ⟨s', t', output, accepted, hset, hmoves, htree, hsb, fun hgoes => hprinted hgoes.1 hgoes.2, by simp⟩

/-- A command that has been evaluated is a step. -/
theorem step_of_yields (image : Image) (c : Command) (clock : ℕ → Stamp) (P : FileSystem × Output → Bool)
    {n : ℕ} (h : yields (image.exec c clock n) P = true) :
    ∃ s output, commands.step image ⟨c, clock, output, s.printed⟩ s.toImage ∧ P (s, output) = true := by
  obtain ⟨⟨s, output⟩, hset, hP⟩ := Settles.of_yields (fun _ _ h => exec_below h image c clock) h
  exact ⟨s, output, ⟨s, hset, rfl, rfl⟩, hP⟩

/-- A step of a run, with the entry that is made. -/
theorem HasTree.step_made {e : Event} (h : image.HasTree l t) (hsingle : t.Single) (hc : image.Harmless e.command)
    (hstep : commands.step image e image') :
    ∃ t' accepted, Moves (image.Reaches · e.command) e.clock e.command t image.load.sb t' image'.load.sb e.output
      accepted ∧ image'.HasTree l t' ∧ t'.Single ∧ (e.command.Goes → (e.printed = [] ↔ accepted)) ∧
      ∀ target path, e.command = .make target path → accepted →
        FileSystem.Made target (e.clock (path.length - 1)) path t t' := by
  obtain ⟨s, hset, hprinted, rfl⟩ := hstep
  obtain ⟨s', t', output, accepted, hset', hmoves, htree, hsb, hacc, hmade⟩ := exec_spec h hsingle hc e.clock
  obtain ⟨rfl, rfl⟩ := Prod.mk.inj (Except.ok.inj (hset.unique hset'))
  exact ⟨t', accepted, hsb ▸ hmoves, htree, hmoves.single hsingle, hprinted ▸ hacc, hmade⟩

/-- A step of a run. -/
theorem HasTree.step {e : Event} (h : image.HasTree l t) (hsingle : t.Single) (hc : image.Harmless e.command)
    (hstep : commands.step image e image') :
    ∃ t' accepted, Moves (image.Reaches · e.command) e.clock e.command t image.load.sb t' image'.load.sb e.output
      accepted ∧ image'.HasTree l t' ∧ t'.Single ∧ (e.command.Goes → (e.printed = [] ↔ accepted)) := by
  obtain ⟨t', accepted, hmoves, htree, hsingle', hacc, -⟩ := h.step_made hsingle hc hstep
  exact ⟨t', accepted, hmoves, htree, hsingle', hacc⟩

/-- What the moves preserve holds after all runs of commands that reach no defect. -/
theorem HasTree.steps {ok : Image → Event → Prop} {I : Tree → Superblock → Prop}
    (hok : ∀ image e, ok image e → image.Harmless e.command)
    (hmoves : ∀ image l e t t' sb' accepted, ok image e → image.HasTree l t →
      Moves (image.Reaches · e.command) e.clock e.command t image.load.sb t' sb' e.output accepted →
      (e.command.Goes → (e.printed = [] ↔ accepted)) → I t image.load.sb → I t' sb')
    (hsteps : (commands.restrict ok).Steps image image') (h : image.HasTree l t) (hsingle : t.Single)
    (hinv : I t image.load.sb) : ∃ t', image'.HasTree l t' ∧ t'.Single ∧ I t' image'.load.sb := by
  induction hsteps with
  | refl => exact ⟨t, h, hsingle, hinv⟩
  | step _ hstep ih =>
    obtain ⟨t₁, h₁, hsingle₁, hinv₁⟩ := ih
    obtain ⟨t₂, accepted, hm, h₂, hsingle₂, hacc⟩ := h₁.step hsingle₁ (hok _ _ hstep.1) hstep.2
    exact ⟨t₂, h₂, hsingle₂, hmoves _ _ _ _ _ _ _ hstep.1 h₁ hm hacc hinv₁⟩

end Image

end GtuOs.FatFileSystem
