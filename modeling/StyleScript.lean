import StyleScript.Property.Catalog
import StyleScript.StyleSheet
import StyleScript.Script.Lexeme
import StyleScript.Script.Reader
import StyleScript.Markup.Event
import StyleScript.Markup.Style
import StyleScript.SheetWriter
import StyleScript.Session
import StyleScript.Construction.Document
import StyleScript.Settings.File
import StyleScript.Proofs.Text.Classes
import StyleScript.Proofs.Text.Quoted
import StyleScript.Proofs.Text.Tokens
import StyleScript.Proofs.Number.Rounding
import StyleScript.Proofs.Number.Decimals
import StyleScript.Proofs.Number.Shortest
import StyleScript.Proofs.Number.Bytes
import StyleScript.Proofs.Script.Raw
import StyleScript.Proofs.Script.Equations
import StyleScript.Proofs.Script.Prolonged
import StyleScript.Proofs.Script.Places
import StyleScript.Proofs.Script.Moved
import StyleScript.Proofs.Script.Joined
import StyleScript.Proofs.Script.Written
import StyleScript.Proofs.Script.Statements
import StyleScript.Proofs.Property.Catalog
import StyleScript.Proofs.Session.Sheets
import StyleScript.Proofs.Delivery.Told
import StyleScript.Proofs.Session.Failure
import StyleScript.Proofs.Session.Joined
import StyleScript.Proofs.Property.Closed
import StyleScript.Proofs.Property.Tables
import StyleScript.Proofs.Color.Content
import StyleScript.Proofs.Color.Writing
import StyleScript.Proofs.Color.Rereading
import StyleScript.Proofs.Color.RoundTrip
import StyleScript.Proofs.Writer.Entries
import StyleScript.Proofs.Writer.Leaves
import StyleScript.Proofs.Writer.Containment
import StyleScript.Proofs.Writer.Sheets
import StyleScript.Proofs.Construction.Order
import StyleScript.Proofs.Construction.Lines
import StyleScript.Proofs.Construction.Names
import StyleScript.Proofs.Construction.Reading
import StyleScript.Proofs.Property.Aspects
import StyleScript.Proofs.Property.Slider
import StyleScript.Proofs.Number.Integers
import StyleScript.Proofs.Property.Tracing
import StyleScript.Proofs.Property.TableView
import StyleScript.Proofs.Number.Spelling
import StyleScript.Proofs.Property.Measures
import StyleScript.Proofs.Property.Families
import StyleScript.Proofs.Text.Division
import StyleScript.Proofs.BarTag.Contents
import StyleScript.Proofs.BarTag.Rereading
import StyleScript.Proofs.BarTag.Patterns
import StyleScript.Proofs.BarTag.Survival
import StyleScript.Proofs.Property.Animation
import StyleScript.Proofs.Property.Visibility
import StyleScript.Proofs.Coordinates.Layouts
import StyleScript.Proofs.Coordinates.Survival
import StyleScript.Proofs.StartPoint.Corners
import StyleScript.Proofs.StartPoint.Survival
import StyleScript.Proofs.StyleSheet.Merging
import StyleScript.Proofs.StyleSheet.History
import StyleScript.Proofs.Property.LineStyle
import StyleScript.Proofs.Property.Lettering
import StyleScript.Proofs.Property.SingleValues
import StyleScript.Proofs.Script.Macros
import StyleScript.Proofs.Session.Macros
import StyleScript.Proofs.Session.Isolation
import StyleScript.Proofs.Script.Shortened
import StyleScript.Proofs.Script.Sources
import StyleScript.Proofs.Session.Sources
import StyleScript.Proofs.Session.Faults
import StyleScript.Proofs.Delivery.Protocol
import StyleScript.Proofs.Delivery.Lookups
import StyleScript.Proofs.Delivery.Moments
import StyleScript.Proofs.Delivery.Precedence
import StyleScript.Proofs.Session.Memory
import StyleScript.Proofs.Markup.Collected
import StyleScript.Proofs.StartPoint.Delivery
import StyleScript.Proofs.BarTag.Delivery
import StyleScript.Proofs.Property.Defaults
import StyleScript.Proofs.Construction.Stable
import StyleScript.Proofs.Construction.Calls
import StyleScript.Proofs.Construction.Sheets
import StyleScript.Proofs.Markup.Elements
import StyleScript.Proofs.Markup.Forest
import StyleScript.Proofs.Property.Reordered
import StyleScript.Proofs.BarTag.Reordered
import StyleScript.Proofs.Text.Nesting
import StyleScript.Proofs.Script.Values
import StyleScript.Proofs.Script.Fenced
import StyleScript.Proofs.Script.Separation
