import Xv6.Mkfs.Append

/-!
# The files of an image

`mkfs` writes the root directory and one file for each argument. `Holds` says that
the image has the given files and nothing else.
-/

namespace Xv6.Mkfs

open List
open Function
open Xv6.Disk Xv6.Disk.Volume
open Prog (Ensures)

def blocksOf (text : Nat → List UInt8) : Nat :=
  ∑ i ∈ Finset.range wide.ninodes, blocksFor (text i).length

structure Sized (text : Nat → List UInt8) : Prop where
  short : ∀ i, i < wide.ninodes → (text i).length ≤ maxFile * bsize
  enough : nmeta + blocksOf text ≤ fssize

/-- The image has the files `text` in the inodes before `freeinode`. -/
structure Holds (s : State) (text : Nat → List UInt8) : Prop where
  good : Good s (volumeOf wide s.image)
  bound : s.freeinode ≤ wide.ninodes
  inUse : ∀ i, 1 ≤ i → i < s.freeinode →
    ((volumeOf wide s.image).inode i).type = if i = rootIno then typeDir else typeFile
  size : ∀ i, 1 ≤ i → i < s.freeinode → ((volumeOf wide s.image).inode i).size = (text i).length
  filled : ∀ i, 1 ≤ i → i < s.freeinode → Filled (volumeOf wide s.image) i (text i)
  free : ∀ i, i = 0 ∨ s.freeinode ≤ i → (volumeOf wide s.image).inode i = Dinode.zero ∧ text i = []
  total : s.freeblock = nmeta + blocksOf text

variable {s : State} {text : Nat → List UInt8} {inum : Nat} {allowed : Failure → Prop}

theorem blocksOf_mono {text text' : Nat → List UInt8}
    (le : ∀ i, (text i).length ≤ (text' i).length) : blocksOf text ≤ blocksOf text' :=
  Finset.sum_le_sum fun i _ => blocksFor_mono (le i)

theorem Sized.mono {text text' : Nat → List UInt8} (sized : Sized text')
    (le : ∀ i, (text i).length ≤ (text' i).length) : Sized text :=
  ⟨fun i inside => le_trans (le i) (sized.short i inside),
    le_trans (Nat.add_le_add_left (blocksOf_mono le) nmeta) sized.enough⟩

theorem blocksOf_update (text : Nat → List UInt8) (inside : inum < wide.ninodes)
    (new : List UInt8) :
    blocksOf (update text inum new) + blocksFor (text inum).length =
      blocksOf text + blocksFor new.length := by
  have member : inum ∈ Finset.range wide.ninodes := Finset.mem_range.mpr inside
  have others : ∀ i ∈ (Finset.range wide.ninodes).erase inum,
      blocksFor (update text inum new i).length = blocksFor (text i).length := by
    intro i other
    rw [update_of_ne (Finset.ne_of_mem_erase other)]
  unfold blocksOf
  rw [← Finset.add_sum_erase _ _ member,
    ← Finset.add_sum_erase _ (fun i => blocksFor (text i).length) member,
    Finset.sum_congr rfl others, update_self]
  omega

theorem blocksOf_nil : blocksOf (fun _ => []) = 0 := by simp [blocksOf, blocksFor, bsize]

theorem iblock_lt_fssize (inside : inum < wide.ninodes) : superblock.iblock inum < fssize := by
  have before := wide_before _ inside
  exact lt_of_lt_of_le before (by decide)

theorem rinode_ensures {post : Dinode → State → Prop} (sectors : s.sectors = fssize)
    (inside : inum < wide.ninodes) (holds : post ((volumeOf wide s.image).inode inum) s) :
    Ensures allowed (rinode inum) s post := by
  have below := iblock_lt_fssize inside
  unfold rinode
  refine .bind (rsect_ensures sectors (lt_trans below (by decide)) (fun _ => .pure ?_)
    (fun above => by omega))
  rw [volumeOf_inode inside] at holds
  exact holds

variable {ip : Dinode}

theorem winode_ensures {post : PUnit → State → Prop} (sectors : s.sectors = fssize)
    (inside : inum < wide.ninodes)
    (holds : post ⟨⟩
      { s with
        image := writeDinode wide s.image inum ip
        inodeWrites := s.inodeWrites ++ [superblock.iblock inum] }) :
    Ensures allowed (winode inum ip) s post := by
  have below := iblock_lt_fssize inside
  unfold winode
  refine .bind
    (rsect_ensures sectors (lt_trans below (by decide)) (fun _ => ?_) (fun above => by omega))
  exact .bind (wsect_ensures sectors below (.of_modify holds))

theorem writeDinode_front (image : Blocks) (inum : Nat) (ip : Dinode) :
    writeDinode wide image inum ip 1 = image 1 := by
  have low : wide.inodestart ≤ wide.iblock inum := Nat.le_add_left ..
  have start : 1 < wide.inodestart := by decide
  have other : 1 ≠ wide.iblock inum := by omega
  rw [writeDinode, update_of_ne other]

variable {v : Volume}

theorem Good.setInode (good : Good s v)
    (addrs : ip.addrs = (v.inode inum).addrs) (type : ip.type = 0 ↔ (v.inode inum).type = 0)
    (image : Blocks) (freeinode : Nat) (inodeWrites : List Nat) :
    Good { s with image, freeinode, inodeWrites } (v.setInode inum ip) :=
  ⟨good.sectors, good.low, good.high, good.owned.congr fun i k _ => addr_setInode addrs type i k,
  good.blank⟩

theorem Filled.setInode {i : Nat} {bytes : List UInt8} (filled : Filled v i bytes)
    (addrs : ip.addrs = (v.inode inum).addrs) (type : ip.type = 0 ↔ (v.inode inum).type = 0) :
    Filled (v.setInode inum ip) i bytes := by
  have addr := addr_setInode addrs type i
  refine filled.congr addr fun off _ => ?_
  unfold Volume.byte Volume.fileBlock
  rw [addr, setInode_block]

theorem Same.inode {s₁ : State} (same : Same s s₁) (i : Nat) :
    (volumeOf wide s₁.image).inode i = (volumeOf wide s.image).inode i := by
  by_cases inside : i < wide.ninodes
  · rw [volumeOf_inode inside, volumeOf_inode inside, dinodeAt, same.front _ (wide_before _ inside)]
    rfl
  · rw [volumeOf_inode_outside (by omega), volumeOf_inode_outside (by omega)]

theorem iappend_spec {p : List UInt8} (holds : Holds s text) (low : 1 ≤ inum)
    (high : inum < s.freeinode) :
    Ensures (fun _ => ¬ Sized (update text inum (text inum ++ p))) (iappend inum p) s
      fun _ s' => Holds s' (update text inum (text inum ++ p)) ∧
        s'.freeinode = s.freeinode ∧ s'.image 1 = s.image 1 := by
  have inside : inum < wide.ninodes := lt_of_lt_of_le high holds.bound
  have type := holds.inUse inum low high
  have inUse : ((volumeOf wide s.image).inode inum).type ≠ 0 := by
    rw [type]
    split <;> decide
  have self : view s inum ((volumeOf wide s.image).inode inum) = volumeOf wide s.image := by
    unfold view Volume.setInode
    rw [update_eq_self]
  unfold iappend
  refine .bind (rinode_ensures holds.good.sectors inside (.bind ?_))
  rw [holds.size inum low high]
  have good := holds.good
  have filled := holds.filled inum low high
  rw [← self] at good filled
  refine ((appendBlocks_spec good filled inUse (volumeOf_fits inum) le_rfl).imp ?_).mono ?_
  · rintro _ noRoom ⟨short, enough⟩
    have bytes := short inum inside
    have blocks := blocksOf_update text inside (text inum ++ p)
    rw [update_self, length_append] at bytes
    rw [length_append] at blocks
    refine noRoom ⟨bytes, ?_⟩
    rw [holds.total]
    omega
  · rintro ⟨off, din⟩ s₁ appended
    refine winode_ensures appended.good.sectors inside ?_
    have off_eq : off = (text inum ++ p).length := appended.off.trans length_append.symm
    have fitsSize : off < 2 ^ 32 := by
      rw [off_eq]
      exact lt_of_le_of_lt appended.filled.short (by decide)
    have fits : ({ din with size := off } : Dinode).Fits :=
      ⟨appended.fits.type, appended.fits.major, appended.fits.minor, appended.fits.nlink, fitsSize,
        appended.fits.addrs⟩
    have volume : volumeOf wide (writeDinode wide s₁.image inum { din with size := off }) =
        (view s₁ inum din).setInode inum { din with size := off } := by
      rw [volumeOf_writeDinode wide_before inside fits]
      unfold view Volume.setInode
      simp
    have inode : (view s₁ inum din).inode inum = din := setInode_inode_same inum din
    have addrs : ({ din with size := off } : Dinode).addrs =
      ((view s₁ inum din).inode inum).addrs := by
      rw [inode]
    have sameType : ({ din with size := off } : Dinode).type = 0 ↔
      ((view s₁ inum din).inode inum).type = 0 := by
      rw [inode]
    have din_type : din.type = ((volumeOf wide s.image).inode inum).type := by
      have fields := congrArg Dinode.type appended.fields
      exact fields
    have freeinode := appended.same.freeinode
    have others : ∀ i ≠ inum, ((view s₁ inum din).setInode inum { din with size := off }).inode i =
        (volumeOf wide s.image).inode i := by
      intro i other
      rw [setInode_inode_ne _ other, view, setInode_inode_ne _ other, appended.same.inode]
    have front := writeDinode_front s₁.image inum { din with size := off }
    refine ⟨?_, appended.same.freeinode, front.trans (appended.same.front 1 (by decide))⟩
    constructor
    · rw [volume]
      exact appended.good.setInode addrs sameType _ _ _
    · rw [freeinode]
      exact holds.bound
    · intro i low' high'
      change i < s₁.freeinode at high'
      rw [freeinode] at high'
      rw [volume]
      by_cases same : i = inum
      · subst same
        rw [setInode_inode_same, ← type, ← din_type]
      · rw [others i same]
        exact holds.inUse i low' high'
    · intro i low' high'
      change i < s₁.freeinode at high'
      rw [freeinode] at high'
      rw [volume]
      by_cases same : i = inum
      · subst same
        rw [setInode_inode_same, update_self]
        exact off_eq
      · rw [others i same, update_of_ne same]
        exact holds.size i low' high'
    · intro i low' high'
      change i < s₁.freeinode at high'
      rw [freeinode] at high'
      rw [volume]
      refine Filled.setInode ?_ addrs sameType
      by_cases same : i = inum
      · subst same
        rw [update_self]
        exact appended.filled
      · rw [update_of_ne same]
        apply appended.others i same
        rw [self]
        exact holds.filled i low' high'
    · intro i outside
      change i = 0 ∨ s₁.freeinode ≤ i at outside
      rw [freeinode] at outside
      have other : i ≠ inum := by omega
      rw [volume, others i other, update_of_ne other]
      exact holds.free i outside
    · have count := appended.count
      have total := holds.total
      have blocks := blocksOf_update text inside (text inum ++ p)
      rw [length_append] at blocks
      change s₁.freeblock = _
      omega

theorem filled_nil {i : Nat} (blank : ∀ k, v.addr i k = 0) : Filled v i [] := by
  refine ⟨fun bn _ => ?_, ?_, fun off b char => ?_, Nat.zero_le _⟩
  · simp [Volume.fileBlock, blank]
  · simp [blank]
  · simp at char

theorem newInode_fits {type : Nat} (small : type < 2 ^ 16) : (newInode type).Fits := by
  refine ⟨small, ?_, ?_, ?_, ?_, fun _ => ?_⟩ <;> simp [newInode, Dinode.zero]

theorem ialloc_spec (holds : Holds s text) (positive : 1 ≤ s.freeinode)
    (room : s.freeinode < wide.ninodes) :
    Ensures allowed (ialloc (if s.freeinode = rootIno then typeDir else typeFile)) s fun inum s' =>
      inum = s.freeinode ∧ Holds s' text ∧ s'.freeinode = s.freeinode + 1 ∧
      s'.image 1 = s.image 1 := by
  obtain ⟨type, isType⟩ : ∃ type, (if s.freeinode = rootIno then typeDir else typeFile) = type :=
    ⟨_, rfl⟩
  have small : type < 2 ^ 16 := by
    rw [← isType]
    split <;> decide
  rw [isType]
  unfold ialloc
  refine .bind
    (.get (.bind (.of_modify (.bind (winode_ensures holds.good.sectors room (.pure ?_))))))
  have volume : volumeOf wide (writeDinode wide s.image s.freeinode (newInode type)) =
      (volumeOf wide s.image).setInode s.freeinode (newInode type) :=
    volumeOf_writeDinode wide_before room (newInode_fits small)
  obtain ⟨wasZero, empty⟩ := holds.free s.freeinode (.inr le_rfl)
  have before : ∀ k, (volumeOf wide s.image).addr s.freeinode k = 0 :=
    addr_of_free (by rw [wasZero]; rfl)
  have addr : ∀ i k, ((volumeOf wide s.image).setInode s.freeinode (newInode type)).addr i k =
      (volumeOf wide s.image).addr i k := by
    intro i k
    by_cases same : i = s.freeinode
    · subst same
      rw [addr_blank fun _ => by rw [setInode_inode_same]; rfl, before]
    · exact addr_setInode_ne _ same k
  refine ⟨rfl, ?_, rfl, writeDinode_front s.image s.freeinode (newInode type)⟩
  change Holds { s with
    image := writeDinode wide s.image s.freeinode (newInode type),
    freeinode := s.freeinode + 1,
    inodeWrites := s.inodeWrites ++ [superblock.iblock s.freeinode] } text
  constructor
  · rw [volume]
    exact ⟨holds.good.sectors, holds.good.low, holds.good.high,
      holds.good.owned.congr fun i k _ => addr i k, holds.good.blank⟩
  · exact room
  · intro i low high
    change i < s.freeinode + 1 at high
    rw [volume]
    by_cases same : i = s.freeinode
    · subst same
      rw [setInode_inode_same, isType]
      rfl
    · rw [setInode_inode_ne _ same]
      exact holds.inUse i low (by omega)
  · intro i low high
    change i < s.freeinode + 1 at high
    rw [volume]
    by_cases same : i = s.freeinode
    · subst same
      rw [setInode_inode_same, empty]
      rfl
    · rw [setInode_inode_ne _ same]
      exact holds.size i low (by omega)
  · intro i low high
    change i < s.freeinode + 1 at high
    rw [volume]
    by_cases same : i = s.freeinode
    · subst same
      rw [empty]
      exact filled_nil fun k => (addr _ k).trans (before k)
    · refine (holds.filled i low (by omega)).congr (addr i) fun off _ => ?_
      unfold Volume.byte Volume.fileBlock
      rw [addr, setInode_block]
  · intro i outside
    change i = 0 ∨ s.freeinode + 1 ≤ i at outside
    have other : i ≠ s.freeinode := by omega
    rw [volume, setInode_inode_ne _ other]
    exact holds.free i (by omega)
  · exact holds.total

/-! ## The arguments -/

def contents (arg : Arg) : List UInt8 := (arg.pieces.getD []).flatten

def entryName (arg : Arg) : List UInt8 := skipUnderscore (shortname arg.path)

def entries (args : List Arg) : List UInt8 :=
  (args.zipIdx 2).flatMap fun (arg, inum) => direntBytes ⟨inum, entryName arg⟩

def rootText (args : List Arg) : List UInt8 :=
  direntBytes ⟨rootIno, [46]⟩ ++ direntBytes ⟨rootIno, [46, 46]⟩ ++ entries args

/-- The bytes of every file of the image, before the root directory is rounded up. -/
def textOf (args : List Arg) (i : Nat) : List UInt8 :=
  if i = rootIno then rootText args
  else if 2 ≤ i then (args[i - 2]?.map contents).getD []
  else []

/-- `mkfs` has no reason to stop. -/
structure Acceptable (args : List Arg) : Prop where
  names : ∀ arg ∈ args, 47 ∉ shortname arg.path ∧ (entryName arg).length ≤ dirsiz
  opens : ∀ arg ∈ args, arg.pieces ≠ none
  sized : Sized (textOf args)

theorem rootText_append (args : List Arg) (arg : Arg) :
    rootText (args ++ [arg]) = rootText args ++ direntBytes ⟨2 + args.length, entryName arg⟩ := by
  simp [rootText, entries, zipIdx_append]

theorem textOf_append (args : List Arg) (arg : Arg) :
    textOf (args ++ [arg]) =
      update (update (textOf args) rootIno
        (rootText args ++ direntBytes ⟨2 + args.length, entryName arg⟩)) (2 + args.length)
          (contents arg) := by
  funext i
  by_cases isNew : i = 2 + args.length
  · subst isNew
    rw [update_self, textOf, if_neg (by unfold rootIno; omega), if_pos (by omega)]
    simp
  · rw [update_of_ne isNew]
    by_cases isRoot : i = rootIno
    · subst isRoot
      rw [update_self, textOf, if_pos rfl, rootText_append]
    · rw [update_of_ne isRoot, textOf, textOf, if_neg isRoot, if_neg isRoot]
      split
      next low =>
        congr 2
        by_cases inside : i - 2 < args.length
        · rw [getElem?_append_left inside]
        · have beyond : (args ++ [arg]).length ≤ i - 2 := by
            rw [length_append, length_singleton]
            omega
          rw [getElem?_eq_none beyond, getElem?_eq_none (by omega)]
      next => rfl

theorem textOf_nil : textOf [] = update (fun _ => []) rootIno (rootText []) := by
  funext i
  by_cases isRoot : i = rootIno
  · subst isRoot
    rw [update_self, textOf, if_pos rfl]
  · rw [update_of_ne isRoot, textOf, if_neg isRoot]
    simp

theorem textOf_length_le (done rest : List Arg) (i : Nat) :
    (textOf done i).length ≤ (textOf (done ++ rest) i).length := by
  unfold textOf
  split
  next => simp [rootText, entries, zipIdx_append]
  next =>
    split
    next =>
      by_cases inside : i - 2 < done.length
      · rw [getElem?_append_left inside]
      · rw [getElem?_eq_none (by omega)]
        simp
    next => exact le_rfl

variable {args : List Arg}

/-- Nothing is longer than it will be in the end. -/
theorem not_acceptable (within : ∀ i, (text i).length ≤ (textOf args i).length)
    (tooBig : ¬ Sized text) : ¬ Acceptable args :=
  fun acceptable => tooBig (acceptable.sized.mono within)

theorem pieces_spec {pieces : List (List UInt8)} (holds : Holds s text) (low : 1 ≤ inum)
    (high : inum < s.freeinode)
    (within : ∀ i, (update text inum (text inum ++ pieces.flatten) i).length ≤
      (textOf args i).length) :
    Ensures (fun _ => ¬ Acceptable args) (pieces.forM (iappend inum)) s fun _ s' =>
      Holds s' (update text inum (text inum ++ pieces.flatten)) ∧
        s'.freeinode = s.freeinode ∧ s'.image 1 = s.image 1 := by
  induction pieces generalizing s text with
  | nil =>
    refine .pure ⟨?_, rfl, rfl⟩
    rw [flatten_nil, append_nil, update_eq_self]
    exact holds
  | cons piece pieces ih =>
    rw [flatten_cons] at within ⊢
    refine .seq ((iappend_spec holds low high).imp ?_) ?_
    · intro _ tooBig
      refine not_acceptable (fun i => le_trans ?_ (within i)) tooBig
      by_cases same : i = inum
      · subst same
        simp
      · rw [update_of_ne same, update_of_ne same]
    · rintro _ s₁ ⟨holds₁, freeinode₁, front₁⟩
      have appended : update (update text inum (text inum ++ piece)) inum
          (update text inum (text inum ++ piece) inum ++ pieces.flatten) =
            update text inum (text inum ++ (piece ++ pieces.flatten)) := by
        rw [update_self, update_idem, append_assoc]
      rw [← appended] at within ⊢
      refine (ih holds₁ (by rwa [freeinode₁]) within).mono ?_
      rintro _ s₂ ⟨holds₂, freeinode₂, front₂⟩
      exact ⟨holds₂, freeinode₂.trans freeinode₁, front₂.trans front₁⟩

theorem addFile_spec {done rest : List Arg} {arg : Arg} (holds : Holds s (textOf done))
    (count : s.freeinode = 2 + done.length) (few : done.length + 2 < wide.ninodes) :
    Ensures (fun _ => ¬ Acceptable (done ++ [arg] ++ rest)) (addFile arg) s fun _ s' =>
      Holds s' (textOf (done ++ [arg])) ∧ s'.freeinode = 2 + (done ++ [arg]).length ∧
      s'.image 1 = s.image 1 := by
  have member : arg ∈ done ++ [arg] ++ rest := by simp
  unfold addFile
  refine .ite (fun slash => .throw fun acceptable => (acceptable.names arg member).1 slash) fun _ =>
    ?_
  cases opened : arg.pieces with
  | none => exact .throw fun acceptable => acceptable.opens arg member opened
  | some pieces =>
    refine .ite (fun long => .throw fun acceptable => ?_) fun _ => .bind ?_
    · have := (acceptable.names arg member).2
      unfold entryName at this
      omega
    have isFile : (if s.freeinode = rootIno then typeDir else typeFile) = typeFile := by
      rw [if_neg]
      unfold rootIno
      omega
    have alloc : Ensures (fun _ => ¬ Acceptable (done ++ [arg] ++ rest)) (ialloc
        (if s.freeinode = rootIno then typeDir else typeFile)) s _ :=
      ialloc_spec holds (by omega) (by omega)
    rw [isFile] at alloc
    refine alloc.mono ?_
    rintro inum s₁ ⟨rfl, holds₁, freeinode₁, front₁⟩
    -- the entry in the root directory
    have root : textOf done rootIno = rootText done := if_pos rfl
    have isContents : pieces.flatten = contents arg := by
      rw [contents, opened]
      rfl
    have blank : textOf done (2 + done.length) = [] := by
      rw [← count]
      exact (holds.free _ (.inr le_rfl)).2
    have other : 2 + done.length ≠ rootIno := by
      unfold rootIno
      omega
    obtain ⟨linked, isLinked⟩ : ∃ linked, linked = update (textOf done) rootIno
        (textOf done rootIno ++ direntBytes ⟨2 + done.length, entryName arg⟩) := ⟨_, rfl⟩
    have linked_blank : linked (2 + done.length) = [] := by
      rw [isLinked, update_of_ne other, blank]
    have whole : update linked (2 + done.length)
        (linked (2 + done.length) ++ pieces.flatten) = textOf (done ++ [arg]) := by
      rw [linked_blank, isContents, nil_append, isLinked, textOf_append, root]
    have within : ∀ i, (update linked (2 + done.length)
        (linked (2 + done.length) ++ pieces.flatten) i).length ≤
          (textOf (done ++ [arg] ++ rest) i).length := by
      rw [whole]
      exact textOf_length_le (done ++ [arg]) rest
    have rootHigh : rootIno < s₁.freeinode := by
      unfold rootIno
      omega
    have link : Ensures (fun _ => ¬ Sized linked)
        (iappend rootIno (direntBytes ⟨2 + done.length, entryName arg⟩)) s₁ fun _ s' =>
          Holds s' linked ∧ s'.freeinode = s₁.freeinode ∧ s'.image 1 = s₁.image 1 := by
      rw [isLinked]
      exact iappend_spec holds₁ (le_refl rootIno) rootHigh
    rw [count]
    refine .seq (link.imp ?_) ?_
    · intro _ tooBig
      refine not_acceptable (fun i => le_trans ?_ (within i)) tooBig
      by_cases isNew : i = 2 + done.length
      · subst isNew
        rw [linked_blank]
        exact Nat.zero_le _
      · rw [update_of_ne isNew]
    · rintro _ s₂ ⟨holds₂, freeinode₂, front₂⟩
      refine (pieces_spec holds₂ (by omega) (by omega) within).mono ?_
      rintro _ s₃ ⟨holds₃, freeinode₃, front₃⟩
      rw [whole] at holds₃
      refine ⟨holds₃, ?_, front₃.trans (front₂.trans front₁)⟩
      rw [length_append, length_singleton]
      omega

/-! ## The whole image -/

def blankState (sectors : Nat) : State := ⟨fun _ => zeroes, sectors, 1, nmeta, []⟩

theorem zeroFrom_spec {n k : Nat} (total : k + n = fssize) :
    Ensures allowed ((range' k n).forM fun i => wsect i zeroes) (blankState k) fun _ s =>
      s = blankState fssize := by
  induction n generalizing k with
  | zero =>
    obtain rfl : k = fssize := total
    exact .pure rfl
  | succ n ih =>
    have small : sector k = k := sector_of_lt_fssize (by omega)
    have next : ({ blankState k with
        image := update (blankState k).image (sector k) zeroes,
        sectors := max (blankState k).sectors (sector k + 1) } : State) = blankState (k + 1) := by
      have longer : max k (k + 1) = k + 1 := by omega
      simp only [blankState, small, longer, update_eq_self]
    refine .bind (.of_modify ?_)
    rw [next]
    exact ih (by omega)

theorem zeroImage_spec :
    Ensures allowed zeroImage (blankState 0) fun _ s => s = blankState fssize := by
  unfold zeroImage
  rw [range_eq_range']
  exact zeroFrom_spec (Nat.zero_add _)

def freshState : State :=
  { blankState fssize with image := update (fun _ => zeroes) 1 superblock.store }

theorem fresh_image {b : Nat} (other : b ≠ 1) : freshState.image b = zeroes := by
  change update (fun _ => zeroes) 1 superblock.store b = zeroes
  rw [update_of_ne other]

theorem fresh_inode (i : Nat) : (volumeOf wide freshState.image).inode i = Dinode.zero := by
  by_cases inside : i < wide.ninodes
  · have low : wide.inodestart ≤ wide.iblock i := Nat.le_add_left ..
    have start : 1 < wide.inodestart := by decide
    have other : wide.iblock i ≠ 1 := by omega
    rw [volumeOf_inode inside, dinodeAt, fresh_image other, loadDinode_zeroes]
  · exact volumeOf_inode_outside (by omega)

theorem fresh_addr (i k : Nat) : (volumeOf wide freshState.image).addr i k = 0 :=
  addr_of_free (by rw [fresh_inode]; rfl) k

theorem fresh_holds : Holds freshState fun _ => [] := by
  constructor
  · refine ⟨rfl, le_rfl, by decide, ⟨?_, ?_, ?_⟩, ?_⟩
    · exact fun i k _ present => absurd (fresh_addr i k) present
    · exact fun i k _ _ _ _ present => absurd (fresh_addr i k) present
    · intro b below
      constructor
      · exact .inl
      · rintro (before | ⟨i, k, -, is⟩)
        · exact before
        · rw [fresh_addr] at is
          rw [← is]
          exact positive_nmeta
    · intro b above
      change nmeta ≤ b at above
      have other : b ≠ 1 := by
        have : 1 < nmeta := by decide
        omega
      rw [volumeOf_block above, fresh_image other]
  · decide
  · intro i low high
    change i < 1 at high
    omega
  · intro i low high
    change i < 1 at high
    omega
  · intro i low high
    change i < 1 at high
    omega
  · exact fun i _ => ⟨fresh_inode i, rfl⟩
  · rw [blocksOf_nil]
    rfl

/-- What holds of the image before the root directory is rounded up. -/
structure Built (args : List Arg) (s : State) : Prop where
  holds : Holds s (textOf args)
  freeinode : s.freeinode = 2 + args.length
  front : s.image 1 = superblock.store

theorem addFiles_spec {done rest : List Arg} (built : Built done s)
    (few : done.length + rest.length + 2 ≤ wide.ninodes) :
    Ensures (fun _ => ¬ Acceptable (done ++ rest)) (rest.forM addFile) s fun _ s' =>
      Built (done ++ rest) s' := by
  induction rest generalizing done s with
  | nil =>
    refine .pure ?_
    rwa [append_nil]
  | cons arg rest ih =>
    have split : done ++ arg :: rest = done ++ [arg] ++ rest := by simp
    rw [length_cons] at few
    rw [split]
    refine .seq (addFile_spec built.holds built.freeinode (by omega)) ?_
    rintro _ s₁ ⟨holds₁, freeinode₁, front₁⟩
    refine ih ⟨holds₁, freeinode₁, front₁.trans built.front⟩ ?_
    rw [length_append, length_singleton]
    omega

theorem rootText_nil : rootText [] =
    direntBytes ⟨rootIno, [46]⟩ ++ direntBytes ⟨rootIno, [46, 46]⟩ := append_nil _

theorem makeRoot_spec :
    Ensures (fun _ => ¬ Acceptable args) makeRoot freshState fun _ s => Built [] s := by
  have within : ∀ bytes : List UInt8, bytes.length ≤ (rootText []).length → ∀ i,
      (update (fun _ => []) rootIno bytes i : List UInt8).length ≤ (textOf args i).length := by
    intro bytes short i
    refine le_trans ?_ (textOf_length_le [] args i)
    rw [textOf_nil]
    by_cases isRoot : i = rootIno
    · subst isRoot
      rw [update_self, update_self]
      exact short
    · rw [update_of_ne isRoot, update_of_ne isRoot]
  have isRoot : freshState.freeinode = rootIno := rfl
  have alloc : Ensures (fun _ => ¬ Acceptable args) (ialloc
      (if freshState.freeinode = rootIno then typeDir else typeFile)) freshState _ :=
    ialloc_spec fresh_holds le_rfl (by decide)
  rw [if_pos isRoot] at alloc
  unfold makeRoot
  refine .seq alloc ?_
  rintro root s₁ ⟨rfl, holds₁, freeinode₁, front₁⟩
  refine .ite (fun other => absurd isRoot other) fun _ => .bind ?_
  have high : rootIno < s₁.freeinode := by
    rw [freeinode₁, isRoot]
    exact Nat.lt_succ_self _
  refine ((iappend_spec holds₁ (le_refl rootIno) high).imp ?_).mono ?_
  · intro _ tooBig
    refine not_acceptable (within _ ?_) tooBig
    rw [rootText_nil, nil_append, length_append]
    omega
  · rintro _ s₂ ⟨holds₂, freeinode₂, front₂⟩
    rw [← freeinode₂] at high
    have both : update (update (fun _ => []) rootIno
        ([] ++ direntBytes ⟨rootIno, [46]⟩)) rootIno
        (update (fun _ => []) rootIno ([] ++ direntBytes ⟨rootIno, [46]⟩) rootIno ++
          direntBytes ⟨rootIno, [46, 46]⟩) = textOf [] := by
      rw [update_self, update_idem, nil_append, textOf_nil, rootText_nil]
    have append := iappend_spec (p := direntBytes ⟨rootIno, [46, 46]⟩) holds₂ (le_refl rootIno) high
    rw [both] at append
    refine (append.imp ?_).mono ?_
    · intro _ tooBig
      exact not_acceptable (textOf_length_le [] args) tooBig
    · rintro _ s₃ ⟨holds₃, freeinode₃, front₃⟩
      refine ⟨holds₃, ?_, front₃.trans (front₂.trans front₁)⟩
      rw [freeinode₃, freeinode₂, freeinode₁]
      rfl

/-- As long as the inodes fit into their blocks, `build` makes the image with the
files of the arguments, or stops because they are not acceptable. -/
theorem build_spec (few : args.length + 2 ≤ wide.ninodes) :
    Ensures (fun _ => ¬ Acceptable args) (build args) start fun _ s => Built args s := by
  unfold build
  refine .bind (.of_modify (.bind ?_))
  refine zeroImage_spec.mono ?_
  rintro _ s₀ rfl
  refine .bind (wsect_ensures rfl (by decide) (.bind ?_))
  refine makeRoot_spec.mono ?_
  intro _ s₁ built
  exact addFiles_spec built (by simpa using few)

end Xv6.Mkfs
