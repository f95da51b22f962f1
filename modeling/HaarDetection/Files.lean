import HaarDetection.Image.Integral
import HaarDetection.Search.OptionsDocument

/-!
# Reading files

What a file holds is told from its name: a cascade has the extension `json`, an image one of the
extensions of the formats that can be read. Options may have any name.

* `extension?`: the extension of the file that a path leads to.
* `loadCascade`, `loadOptions`, `loadImage`: the contents of a file.
-/

namespace HaarDetection

/-- The parts of a path between slashes. -/
def pathParts : List Char → (part : List Char) → List (List Char)
  | [], part => [part.reverse]
  | '/' :: rest, part => part.reverse :: pathParts rest []
  | c :: rest, part => pathParts rest (c :: part)

/-- The name of the file that a path leads to. Empty parts and parts of a single dot are passed
over; a path that ends in a step upwards or in no part at all has no name. -/
def fileName? (path : String) : Option (List Char) :=
  let parts := (pathParts path.toList []).filter fun part => part ≠ [] ∧ part ≠ ['.']
  match parts.getLast? with
  | some ['.', '.'] => none
  | name => name

/-- **The extension of a path:** what follows the last dot in the file name, if something comes
before that dot. -/
def extension? (path : String) : Option String := do
  let reversed := (← fileName? path).reverse
  let (after, dot) := reversed.span (· ≠ '.')
  if dot.length ≤ 1 then none else some (String.ofList after.reverse)

/-- The image formats that can be read. -/
inductive ImageFormat
  | jpeg
  | png
  | gif
deriving DecidableEq, Repr

/-- The format of images with an extension. -/
def ImageFormat.ofExtension? : String → Option ImageFormat
  | "jpg" | "jpeg" => some .jpeg
  | "png" => some .png
  | "gif" => some .gif
  | _ => none

/-- A reason why the contents of a file were not loaded. -/
inductive LoadError (ε : Type)
  /-- The extension of a path is not that of a cascade. -/
  | cascadePath (path : String)
  /-- The extension of a path is not that of an image. -/
  | imagePath (path : String)
  /-- The file could not be read, or is no text where it should be one. -/
  | unreadable
  /-- The bytes of an image could not be decoded. -/
  | undecodable
  /-- The text of a file was refused. -/
  | document (error : DocumentError ε)
deriving DecidableEq

/-- The wording of an error that is about the path. -/
def LoadError.pathMessage? {ε : Type} : LoadError ε → Option String
  | .cascadePath path =>
    some ("invalid cascade path '" ++ path ++ "' (must have a `.json` extension)")
  | .imagePath path =>
    some ("invalid image path '" ++ path ++ "' (must have one of the supported extensions)")
  | _ => none

/-- A file system, as far as it is needed: the bytes of the file at a path, if there is one. -/
abbrev Files := String → Option ByteArray

/-- The text of a file, which has to be UTF-8. -/
def readText {ε : Type} (files : Files) (path : String) : Except (LoadError ε) String :=
  match (files path).bind String.fromUTF8? with
  | some text => .ok text
  | none => .error .unreadable

/-- **The cascade in a file.** The extension is looked at before the file. -/
def loadCascade (files : Files) (path : String) :
    Except (LoadError CascadeError) (Cascade Float) := do
  if extension? path ≠ some "json" then .error (.cascadePath path)
  match Cascade.ofText (← readText files path) with
  | .ok cascade => .ok cascade
  | .error error => .error (.document error)

/-- The options in a file. -/
def loadOptions (files : Files) (path : String) : Except (LoadError OptionsError) Options := do
  match Options.ofText (← readText files path) with
  | .ok options => .ok options
  | .error error => .error (.document error)

/-- The image in a file, by a decoder for the formats. -/
def loadImage (decode : ImageFormat → ByteArray → Option Pixels) (files : Files) (path : String) :
    Except (LoadError Empty) Pixels :=
  match (extension? path).bind ImageFormat.ofExtension? with
  | none => .error (.imagePath path)
  | some format =>
    match files path with
    | none => .error .unreadable
    | some bytes =>
      match decode format bytes with
      | none => .error .undecodable
      | some pixels => .ok pixels

/-- The integral image of an image in a file. -/
def loadIntegral (decode : ImageFormat → ByteArray → Option Pixels) (files : Files)
    (path : String) : Except (LoadError Empty) IntegralImage :=
  (loadImage decode files path).map .ofPixels

end HaarDetection
