import SysX.BulkFill
import SysX.Lib.Moves

/-!
Scrolling of the framebuffer (`fbuf_scroll_up`, `fbuf_scroll_down` in `hal/fbuf.c`). The source of a move is
always the backbuffer. Without one it is address 0, and the bytes from there on are `low`, of which those that
are not mapped are `none`.
-/
namespace SysX

/-- The rest of `fbuf_t` that scrolling uses. A hook that is `NULL` is `none`. -/
structure ScrollFbuf extends Fbuf where
  flipAll : Bool
  scrollUp : Option (Fbuf → ℕ → Fbuf)
  scrollDown : Option (Fbuf → ℕ → Fbuf)

/-- The source of a move: the buffer that is written itself, or memory apart from it. -/
inductive MoveSource
  | same
  | apart (bytes : ℕ → Option UInt8)

/-- `memmove` to offset `dst` of a buffer. A byte of the source that is not mapped faults. -/
def memmove (m : FbufBytes) (dst : ℕ) (source : MoveSource) (src n : ℕ) : Option FbufBytes :=
  match source with
  | .same => some (moveWithin m dst src n)
  | .apart bytes => copyFrom bytes dst src n m

/-- What sets the two functions apart: the line that lines are moved to, the one that they are moved from, the
first one that is filled, and the hook. The moved lines and the filled ones make up the screen. -/
structure ScrollKind where
  target : (height lines : ℕ) → ℕ
  source : (height lines : ℕ) → ℕ
  filled : (height lines : ℕ) → ℕ
  hook : ScrollFbuf → Option (Fbuf → ℕ → Fbuf)
  screen : ∀ height lines, target height lines = 0 ∧ filled height lines = height - lines ∨
    target height lines = lines ∧ filled height lines = 0

namespace ScrollKind

def up : ScrollKind where
  target _ _ := 0
  source _ lines := lines
  filled height lines := height - lines
  hook := ScrollFbuf.scrollUp
  screen _ _ := .inl ⟨rfl, rfl⟩

def down : ScrollKind where
  target _ lines := lines
  source _ _ := 0
  filled _ _ := 0
  hook := ScrollFbuf.scrollDown
  screen _ _ := .inr ⟨rfl, rfl⟩

/-- `fbuf_scroll_up_stub` and `fbuf_scroll_down_stub` -/
def stub (kind : ScrollKind) (impl : Fbuf) (dst : FbufBytes) (src : MoveSource) (lines : ℕ) (color : FbufColor) :
    Option FbufBytes := do
  let m ← memmove dst (kind.target impl.height lines * impl.pitch) src
    (kind.source impl.height lines * impl.pitch) ((impl.height - lines) * impl.pitch)
  return fbufFillStub impl m (kind.filled impl.height lines) lines color

end ScrollKind

/-- The memory that the pointer `backbuffer` leads to when it is read for another buffer. -/
def Fbuf.moveSource (low : ℕ → Option UInt8) (impl : Fbuf) : MoveSource :=
  match impl.backbuffer with
  | some m => .apart fun a => some (m a)
  | none => .apart low

/-- The scroll of `lines` lines, at most `height` of them. -/
def fbufScrollLines (kind : ScrollKind) (low : ℕ → Option UInt8) (impl : ScrollFbuf) (lines : ℕ)
    (color : FbufColor) : Option ScrollFbuf :=
  match kind.hook impl with
  | some hook =>
    let impl := { impl with toFbuf := hook impl.toFbuf lines }
    let fill m := fbufFillStub impl.toFbuf m (kind.filled impl.height lines) lines color
    match impl.backbuffer with
    | some m => some { impl with backbuffer := some (fill m) }
    | none => some { impl with framebuffer := fill impl.framebuffer }
  | none => do
    let framebuffer ←
      if impl.dbufDirectWrite ∨ impl.backbuffer = none then
        kind.stub impl.toFbuf impl.framebuffer (impl.moveSource low) lines color
      else some impl.framebuffer
    let impl := { impl with framebuffer := framebuffer }
    match impl.backbuffer with
    | some m => do
      let m ← kind.stub impl.toFbuf m .same lines color
      return { impl with backbuffer := some m, flipAll := true }
    | none => return impl

def fbufScroll (kind : ScrollKind) (low : ℕ → Option UInt8) (fbufImpl : Option ScrollFbuf) (lines : ℕ)
    (color : FbufColor) : Option (Option ScrollFbuf) :=
  match fbufImpl with
  | none => some none
  | some impl =>
    if lines = 0 then some (some impl)
    else
      let lines := if lines > impl.height then impl.height else lines
      (fbufScrollLines kind low impl lines color).map some

/-- `fbuf_scroll_up` on `fbuf_impl`, or `none` when it faults. -/
def fbufScrollUp := fbufScroll ScrollKind.up

/-- `fbuf_scroll_down` on `fbuf_impl`, or `none` when it faults. -/
def fbufScrollDown := fbufScroll ScrollKind.down

/-! What scrolling leaves on the screen. -/

variable {impl : Fbuf} {m m' : FbufBytes} {color : FbufColor}

namespace Fbuf

variable (impl)

/-- Two visible rows have the same bytes. -/
def SameRow (m : FbufBytes) (r : ℕ) (m' : FbufBytes) (r' : ℕ) : Prop :=
  ∀ i < impl.width * fbufBytesPerPixel impl.type, m (r * impl.pitch + i) = m' (r' * impl.pitch + i)

/-- The pixels of a row have the color. -/
def RowFilled (m : FbufBytes) (r : ℕ) (color : FbufColor) : Prop :=
  ∀ x < impl.width, ∀ i < fbufBytesPerPixel impl.type, m (impl.offset (x, r) + i) = pixelByte impl.type color i

/-- The two buffers show the same image, if there are two. -/
def SameImage : Prop := ∀ m, impl.backbuffer = some m → ∀ r < impl.height, impl.SameRow m r impl.framebuffer r

/-- The buffers that are kept up to date: the framebuffer waits for a commit where there is a backbuffer and
no direct write. -/
def maintained : List FbufBytes :=
  impl.backbuffer.toList ++ if impl.dbufDirectWrite ∨ impl.backbuffer = none then [impl.framebuffer] else []

end Fbuf

namespace ScrollKind

variable (kind : ScrollKind)

/-- The buffer shows the lines of the image that are left, and the color on the others. -/
structure Scrolled (impl : Fbuf) (shown : FbufBytes) (lines : ℕ) (color : FbufColor) (m : FbufBytes) : Prop where
  moved : ∀ r < impl.height - lines,
    impl.SameRow m (kind.target impl.height lines + r) shown (kind.source impl.height lines + r)
  filled : ∀ r < lines, impl.RowFilled m (kind.filled impl.height lines + r) color

/-- The scroll returns, every buffer shows the scrolled image, and with direct write both still show the same
image. -/
def Scrolls (impl : ScrollFbuf) (lines : ℕ) (color : FbufColor) (result : Option (Option ScrollFbuf)) : Prop :=
  ∃ impl', result = some (some impl') ∧
    (∀ m ∈ impl'.maintained, kind.Scrolled impl.toFbuf impl.shown (min lines impl.height) color m) ∧
    (impl.dbufDirectWrite → impl.SameImage → impl'.SameImage)

/-- The bytes from address 0 on happen to be mapped, as many as are moved, and to show the framebuffer. -/
def LowShows (low : ℕ → Option UInt8) (impl : Fbuf) (lines : ℕ) : Prop :=
  (∀ a < (impl.height - lines) * impl.pitch, (low (kind.source impl.height lines * impl.pitch + a)).isSome) ∧
    ∀ r < impl.height - lines, ∀ i < impl.width * fbufBytesPerPixel impl.type,
      low ((kind.source impl.height lines + r) * impl.pitch + i) =
        some (impl.framebuffer ((kind.source impl.height lines + r) * impl.pitch + i))

end ScrollKind

theorem Fbuf.RowFilled.same {r r' : ℕ} (h : impl.RowFilled m r color) (h' : impl.RowFilled m' r' color) :
    impl.SameRow m r m' r' := by
  intro i hi
  have hbytes : 0 < fbufBytesPerPixel impl.type := by
    by_contra hzero
    rw [Nat.eq_zero_of_not_pos hzero] at hi
    omega
  have hx : i / fbufBytesPerPixel impl.type < impl.width := (Nat.div_lt_iff_lt_mul hbytes).mpr hi
  have hmod := Nat.mod_lt i hbytes
  have hcell (r : ℕ) : r * impl.pitch + i =
      impl.offset (i / fbufBytesPerPixel impl.type, r) + i % fbufBytesPerPixel impl.type := by
    rw [Fbuf.offset, cellOffset, Nat.add_assoc, Nat.div_add_mod']
  rw [hcell, hcell, h _ hx _ hmod, h' _ hx _ hmod]

section Stub

variable {kind : ScrollKind} {lines : ℕ} {shown : FbufBytes}

/-- The moved lines stay inside the screen and apart from the ones that are filled. -/
theorem ScrollKind.screen_cases (kind : ScrollKind) {height r : ℕ} (hlines : lines ≤ height)
    (hr : r < height - lines) :
    kind.filled height lines + lines ≤ height ∧
      (kind.target height lines + r + 1 ≤ kind.filled height lines ∨
        kind.filled height lines + lines ≤ kind.target height lines + r) := by
  have := kind.screen height lines
  omega

/-- Two scrolled buffers show the same image. -/
theorem ScrollKind.Scrolled.same (hlines : lines ≤ impl.height) (h : kind.Scrolled impl shown lines color m)
    (h' : kind.Scrolled impl shown lines color m') {r : ℕ} (hr : r < impl.height) : impl.SameRow m r m' r := by
  have hscreen : (∃ k < impl.height - lines, r = kind.target impl.height lines + k) ∨
      ∃ k < lines, r = kind.filled impl.height lines + k := by
    rcases kind.screen impl.height lines with ⟨htarget, hfilled⟩ | ⟨htarget, hfilled⟩
    · rcases Nat.lt_or_ge r (impl.height - lines) with hlt | hge
      · exact .inl ⟨r, hlt, by omega⟩
      · exact .inr ⟨r - (impl.height - lines), by omega, by omega⟩
    · rcases Nat.lt_or_ge r lines with hlt | hge
      · exact .inr ⟨r, hlt, by omega⟩
      · exact .inl ⟨r - lines, by omega, by omega⟩
  rcases hscreen with ⟨k, hk, rfl⟩ | ⟨k, hk, rfl⟩
  · intro i hi
    rw [h.moved k hk i hi, h'.moved k hk i hi]
  · exact (h.filled k hk).same (h'.filled k hk)

/-- A fill does not touch the moved lines. -/
theorem fill_moved (hfits : impl.Fits) (hlines : lines ≤ impl.height) {r i : ℕ} (hr : r < impl.height - lines)
    (hi : i < impl.width * fbufBytesPerPixel impl.type) :
    fbufFillStub impl m (kind.filled impl.height lines) lines color
        ((kind.target impl.height lines + r) * impl.pitch + i) =
      m ((kind.target impl.height lines + r) * impl.pitch + i) := by
  obtain ⟨hscreen, happart⟩ := kind.screen_cases hlines hr
  apply fbufFillStub_outside hfits hscreen
  have hline : i < impl.pitch := Nat.lt_of_lt_of_le hi hfits
  rcases happart with hbefore | hafter
  · have := Nat.mul_le_mul_right impl.pitch hbefore
    rw [Nat.succ_mul] at this
    left
    omega
  · have := Nat.mul_le_mul_right impl.pitch hafter
    right
    omega

theorem fill_filled (hfits : impl.Fits) (hlines : lines ≤ impl.height) {r : ℕ} (hr : r < lines) :
    impl.RowFilled (fbufFillStub impl m (kind.filled impl.height lines) lines color)
      (kind.filled impl.height lines + r) color := by
  intro x hx i hi
  have := kind.screen impl.height lines
  exact fbufFillStub_inside hfits (by omega) hx (by omega) (by omega) hi

/-- A move and a fill scroll an image exactly when the moved lines are its lines. -/
theorem scrolled_iff (hfits : impl.Fits) (hlines : lines ≤ impl.height) :
    kind.Scrolled impl shown lines color (fbufFillStub impl m (kind.filled impl.height lines) lines color) ↔
      ∀ r < impl.height - lines,
        impl.SameRow m (kind.target impl.height lines + r) shown (kind.source impl.height lines + r) := by
  constructor
  · intro h r hr i hi
    rw [← h.moved r hr i hi]
    exact (fill_moved hfits hlines hr hi).symm
  · intro h
    constructor
    · intro r hr i hi
      rw [fill_moved hfits hlines hr hi]
      exact h r hr i hi
    · intro r hr
      exact fill_filled hfits hlines hr

/-- A byte of a moved line, as an offset into what is moved. -/
theorem moved_byte (hfits : impl.Fits) {r i : ℕ} (hr : r < impl.height - lines)
    (hi : i < impl.width * fbufBytesPerPixel impl.type) :
    r * impl.pitch + i < (impl.height - lines) * impl.pitch := by
  have hline : i < impl.pitch := Nat.lt_of_lt_of_le hi hfits
  have hlast : (r + 1) * impl.pitch ≤ _ := Nat.mul_le_mul_right impl.pitch hr
  rw [Nat.succ_mul] at hlast
  omega

/-- A scroll inside one buffer. -/
theorem stub_same (hfits : impl.Fits) (hlines : lines ≤ impl.height) :
    ∃ m', kind.stub impl m .same lines color = some m' ∧ kind.Scrolled impl m lines color m' := by
  refine ⟨_, rfl, (scrolled_iff hfits hlines).mpr ?_⟩
  intro r hr i hi
  have hmoved := moved_byte hfits hr hi
  rw [moveWithin_apply, if_pos, Nat.add_mul, Nat.add_mul]
  · congr 1
    omega
  · rw [Nat.add_mul]
    omega

/-- A scroll from other memory shows an image exactly when that memory is mapped and holds the moved lines. -/
theorem stub_apart_iff {bytes : ℕ → Option UInt8} (hfits : impl.Fits) (hlines : lines ≤ impl.height) :
    (∃ m', kind.stub impl m (.apart bytes) lines color = some m' ∧ kind.Scrolled impl shown lines color m') ↔
      (∀ a < (impl.height - lines) * impl.pitch, (bytes (kind.source impl.height lines * impl.pitch + a)).isSome) ∧
        ∀ r < impl.height - lines, ∀ i < impl.width * fbufBytesPerPixel impl.type,
          bytes ((kind.source impl.height lines + r) * impl.pitch + i) =
            some (shown ((kind.source impl.height lines + r) * impl.pitch + i)) := by
  -- what a copy that succeeds leaves at a moved line
  have hcopied {m₁ : FbufBytes} (hcopy : copyFrom bytes (kind.target impl.height lines * impl.pitch)
      (kind.source impl.height lines * impl.pitch) ((impl.height - lines) * impl.pitch) m = some m₁)
      {r i : ℕ} (hr : r < impl.height - lines) (hi : i < impl.width * fbufBytesPerPixel impl.type) :
      bytes ((kind.source impl.height lines + r) * impl.pitch + i) =
        some (m₁ ((kind.target impl.height lines + r) * impl.pitch + i)) := by
    rw [Nat.add_mul, Nat.add_mul, Nat.add_assoc, Nat.add_assoc]
    exact (copyFrom_eq_some_iff.mp hcopy).1 _ (moved_byte hfits hr hi)
  constructor
  · rintro ⟨m', hstub, hscrolled⟩
    obtain ⟨m₁, hcopy, hfill⟩ := Option.bind_eq_some_iff.mp hstub
    obtain rfl := Option.some_inj.mp hfill
    have hrows := (scrolled_iff hfits hlines).mp hscrolled
    constructor
    · exact isSome_copyFrom_iff.mp (Option.isSome_iff_exists.mpr ⟨m₁, hcopy⟩)
    · intro r hr i hi
      rw [hcopied hcopy hr hi, hrows r hr i hi]
  · rintro ⟨hmapped, hrows⟩
    obtain ⟨m₁, hcopy⟩ := Option.isSome_iff_exists.mp (isSome_copyFrom_iff.mpr hmapped)
    refine ⟨_, Option.bind_eq_some_iff.mpr ⟨m₁, hcopy, rfl⟩, (scrolled_iff hfits hlines).mpr ?_⟩
    intro r hr i hi
    have hbyte := hrows r hr i hi
    rw [hcopied hcopy hr hi, Option.some_inj] at hbyte
    exact hbyte

end Stub

section Claim

variable {kind : ScrollKind} {low : ℕ → Option UInt8} {impl : ScrollFbuf} {lines : ℕ}

theorem fbufScroll_eq (hlines : 1 ≤ lines) :
    fbufScroll kind low (some impl) lines color =
      (fbufScrollLines kind low impl (min lines impl.height) color).map some := by
  have hmin : (if lines > impl.height then impl.height else lines) = min lines impl.height := by
    split_ifs <;> omega
  rw [fbufScroll, if_neg (by omega), hmin]

theorem fbufScrollLines_single (hhook : kind.hook impl = none) (hback : impl.backbuffer = none) :
    fbufScrollLines kind low impl lines color =
      (kind.stub impl.toFbuf impl.framebuffer (.apart low) lines color).map fun m =>
        { impl with framebuffer := m } := by
  obtain ⟨⟨width, height, type, pitch, framebuffer, backbuffer, direct⟩, flipAll, scrollUp, scrollDown⟩ := impl
  obtain rfl : backbuffer = none := hback
  rw [fbufScrollLines, hhook, Option.map_eq_bind]
  simp only [or_true, if_true]
  rfl

theorem fbufScrollLines_double {back : FbufBytes} (hhook : kind.hook impl = none)
    (hback : impl.backbuffer = some back) :
    fbufScrollLines kind low impl lines color = (do
      let front ←
        if impl.dbufDirectWrite then
          kind.stub impl.toFbuf impl.framebuffer (.apart fun a => some (back a)) lines color
        else some impl.framebuffer
      let back' ← kind.stub { impl.toFbuf with framebuffer := front } back .same lines color
      return { impl with framebuffer := front, backbuffer := some back', flipAll := true }) := by
  obtain ⟨⟨width, height, type, pitch, framebuffer, backbuffer, direct⟩, flipAll, scrollUp, scrollDown⟩ := impl
  obtain rfl : backbuffer = some back := hback
  rw [fbufScrollLines, hhook]
  simp only [or_false, reduceCtorEq]
  rfl

theorem scrolls_single (hfits : impl.Fits) (hlines : 1 ≤ lines) (hhook : kind.hook impl = none)
    (hback : impl.backbuffer = none) :
    kind.Scrolls impl lines color (fbufScroll kind low (some impl) lines color) ↔
      kind.LowShows low impl.toFbuf (min lines impl.height) := by
  have hshown : impl.shown = impl.framebuffer := by
    rw [Fbuf.shown, hback, Option.getD_none]
  unfold ScrollKind.LowShows
  rw [← stub_apart_iff hfits (Nat.min_le_right _ _), fbufScroll_eq hlines, fbufScrollLines_single hhook hback,
    Option.map_map]
  constructor
  · rintro ⟨impl', hresult, hbuffers, -⟩
    obtain ⟨m', hstub, hupdate⟩ := Option.map_eq_some_iff.mp hresult
    obtain rfl := Option.some_inj.mp hupdate
    refine ⟨m', hstub, ?_⟩
    rw [← hshown]
    apply hbuffers
    simp [Fbuf.maintained, hback]
  · rintro ⟨m', hstub, hscrolled⟩
    refine ⟨{ impl with framebuffer := m' }, by rw [hstub]; rfl, ?_, ?_⟩
    · intro m hm
      obtain rfl : m = m' := by simpa [Fbuf.maintained, hback] using hm
      rw [hshown]
      exact hscrolled
    · intro _ _ m hm
      simp [hback] at hm

theorem scrolls_double {back : FbufBytes} (hfits : impl.Fits) (hlines : 1 ≤ lines)
    (hhook : kind.hook impl = none) (hback : impl.backbuffer = some back) :
    kind.Scrolls impl lines color (fbufScroll kind low (some impl) lines color) := by
  have hmin : min lines impl.height ≤ impl.height := Nat.min_le_right _ _
  have hshown : impl.shown = back := by
    rw [Fbuf.shown, hback, Option.getD_some]
  -- the backbuffer does not depend on what became of the framebuffer
  have hback' (front : FbufBytes) : ∃ m', kind.stub { impl.toFbuf with framebuffer := front } back .same
      (min lines impl.height) color = some m' ∧
        kind.Scrolled impl.toFbuf back (min lines impl.height) color m' := by
    obtain ⟨m', hstub, hscrolled⟩ : ∃ m', kind.stub { impl.toFbuf with framebuffer := front } back .same
        (min lines impl.height) color = some m' ∧
          kind.Scrolled { impl.toFbuf with framebuffer := front } back (min lines impl.height) color m' :=
      stub_same hfits hmin
    exact ⟨m', hstub, hscrolled.moved, hscrolled.filled⟩
  rw [fbufScroll_eq hlines, fbufScrollLines_double hhook hback]
  by_cases hdirect : impl.dbufDirectWrite
  · have hfrontStub : ∃ front, kind.stub impl.toFbuf impl.framebuffer (.apart fun a => some (back a))
        (min lines impl.height) color = some front ∧
          kind.Scrolled impl.toFbuf back (min lines impl.height) color front :=
      (stub_apart_iff hfits hmin).mpr ⟨fun _ _ => rfl, fun _ _ _ _ => rfl⟩
    obtain ⟨front, hfront, hfrontScrolled⟩ := hfrontStub
    obtain ⟨m', hstub, hscrolled⟩ := hback' front
    refine ⟨{ impl with framebuffer := front, backbuffer := some m', flipAll := true }, ?_, ?_, ?_⟩
    · rw [if_pos hdirect]
      simp only [hfront, Option.bind_eq_bind, Option.bind_some, hstub]
      rfl
    · intro m hm
      rw [hshown]
      obtain rfl | rfl : m = m' ∨ m = front := by simpa [Fbuf.maintained, hdirect] using hm
      · exact hscrolled
      · exact hfrontScrolled
    · intro _ _ m hm r hr
      obtain rfl := Option.some_inj.mp hm
      exact hscrolled.same hmin hfrontScrolled hr
  · obtain ⟨m', hstub, hscrolled⟩ := hback' impl.framebuffer
    refine ⟨{ impl with backbuffer := some m', flipAll := true }, ?_, ?_, ?_⟩
    · rw [if_neg hdirect]
      simp only [Option.bind_eq_bind, Option.bind_some, hstub]
      rfl
    · intro m hm
      obtain rfl : m = m' := by simpa [Fbuf.maintained, hdirect] using hm
      rw [hshown]
      exact hscrolled
    · intro h
      exact absurd h hdirect

theorem scrolls_iff (hfits : impl.Fits) (hlines : 1 ≤ lines) (hhook : kind.hook impl = none) :
    kind.Scrolls impl lines color (fbufScroll kind low (some impl) lines color) ↔
      impl.backbuffer ≠ none ∨ impl.height ≤ lines ∨ kind.LowShows low impl.toFbuf lines := by
  cases hback : impl.backbuffer with
  | some back =>
    simp only [ne_eq, reduceCtorEq, not_false_eq_true, true_or, iff_true]
    exact scrolls_double hfits hlines hhook hback
  | none =>
    rw [scrolls_single hfits hlines hhook hback]
    simp only [ne_eq, not_true_eq_false, false_or]
    rcases Nat.le_total impl.height lines with hall | hsome
    · simp [hall, ScrollKind.LowShows]
    · rw [Nat.min_eq_left hsome]
      constructor
      · exact .inr
      · rintro (hall | hlow)
        · obtain rfl := Nat.le_antisymm hsome hall
          simp [ScrollKind.LowShows]
        · exact hlow

end Claim

/-- Two lines of one pixel, the upper one red, without a backbuffer. -/
def singleScreen : ScrollFbuf where
  width := 1
  height := 2
  type := .fbuf32BppRgb888
  pitch := 4
  framebuffer := fun a => if a = 2 then 0xFF else 0
  backbuffer := none
  dbufDirectWrite := false
  flipAll := false
  scrollUp := none
  scrollDown := none

end SysX
