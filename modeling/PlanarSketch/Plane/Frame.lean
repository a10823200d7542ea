/-
Homogeneous transformations of the plane.

A frame is a three by three matrix.  Its first two columns are the axes and
its third the origin of a coordinate system, so it takes local coordinates to
coordinates of the plane.

Main definitions:
* `Frame.rigid?`, `Frame.scaled?`: the frame of a segment, with unit axes or
  with the segment as unit;
* `Frame.change?`: the transformation between two frames;
* `Frame.apply`: the image of a point.
-/
import PlanarSketch.Plane.Vec

namespace PlanarSketch

/-- A three by three matrix, row by row. -/
structure Frame where
  m11 : Float
  m12 : Float
  m13 : Float
  m21 : Float
  m22 : Float
  m23 : Float
  m31 : Float
  m32 : Float
  m33 : Float
deriving Inhabited

namespace Frame

/-- The identity. -/
def identity : Frame := ⟨1.0, 0.0, 0.0, 0.0, 1.0, 0.0, 0.0, 0.0, 1.0⟩

/-- The entries row by row. -/
def entries (f : Frame) : List Float :=
  [f.m11, f.m12, f.m13, f.m21, f.m22, f.m23, f.m31, f.m32, f.m33]

/-- The frame with a given origin and x axis; the y axis is a quarter turn ahead of it. -/
def ofAxis (origin axis : Vec) : Frame :=
  let y := axis.perp
  ⟨axis.x, y.x, origin.x, axis.y, y.y, origin.y, 0.0, 0.0, 1.0⟩

/-- The frame with unit axes whose x axis points from `origin` at `p`; none if they coincide. -/
def rigid? (origin p : Vec) : Option Frame :=
  let way := p - origin
  let length := way.norm
  if Tolerance.standard.nearZero length then none else some (ofAxis origin (way / length))

/-- The frame in which `p` has the coordinates (1, 0); none if it coincides with the origin. -/
def scaled? (origin p : Vec) : Option Frame :=
  let way := p - origin
  if Tolerance.standard.nearZero way.norm then none else some (ofAxis origin way)

/-- A pure translation. -/
def translation (offset : Vec) : Frame := ofAxis offset ⟨1.0, 0.0⟩

/-- The product: first `g`, then `f`. -/
def mul (f g : Frame) : Frame where
  m11 := f.m11 * g.m11 + f.m12 * g.m21 + f.m13 * g.m31
  m12 := f.m11 * g.m12 + f.m12 * g.m22 + f.m13 * g.m32
  m13 := f.m11 * g.m13 + f.m12 * g.m23 + f.m13 * g.m33
  m21 := f.m21 * g.m11 + f.m22 * g.m21 + f.m23 * g.m31
  m22 := f.m21 * g.m12 + f.m22 * g.m22 + f.m23 * g.m32
  m23 := f.m21 * g.m13 + f.m22 * g.m23 + f.m23 * g.m33
  m31 := f.m31 * g.m11 + f.m32 * g.m21 + f.m33 * g.m31
  m32 := f.m31 * g.m12 + f.m32 * g.m22 + f.m33 * g.m32
  m33 := f.m31 * g.m13 + f.m32 * g.m23 + f.m33 * g.m33

/-- The inverse, as the adjugate over the determinant; none if the determinant is zero. -/
def inverse? (f : Frame) : Option Frame :=
  -- The minors of the first row.
  let a := f.m22 * f.m33 - f.m32 * f.m23
  let b := f.m21 * f.m33 - f.m31 * f.m23
  let c := f.m21 * f.m32 - f.m31 * f.m22
  let det := f.m11 * a - f.m12 * b + f.m13 * c
  if det == 0.0 then none
  else
    some
      { m11 := a / det
        m12 := (f.m13 * f.m32 - f.m33 * f.m12) / det
        m13 := (f.m12 * f.m23 - f.m22 * f.m13) / det
        m21 := -b / det
        m22 := (f.m11 * f.m33 - f.m31 * f.m13) / det
        m23 := (f.m13 * f.m21 - f.m23 * f.m11) / det
        m31 := c / det
        m32 := (f.m12 * f.m31 - f.m32 * f.m11) / det
        m33 := (f.m11 * f.m22 - f.m21 * f.m12) / det }

/-- Takes each point to the one that has the same coordinates in `target` as it has in `source`. -/
def change? (source target : Frame) : Option Frame := source.inverse?.map target.mul

/-- The image of a point. -/
def apply (f : Frame) (p : Vec) : Vec :=
  let x := f.m11 * p.x + f.m12 * p.y + f.m13 * 1.0
  let y := f.m21 * p.x + f.m22 * p.y + f.m23 * 1.0
  let z := f.m31 * p.x + f.m32 * p.y + f.m33 * 1.0
  ⟨x / z, y / z⟩

end Frame

end PlanarSketch
